import Abacus.Proofs.Lexeme.Layout

/-!
# Tokens and gaps tile the source

A source that can be cut is the text of a layout that keeps its tokens apart
(`exists_wellSpaced`): what stands between the tokens are gaps, and nothing is left
over. The place of a token or of an error is the number of bytes before it and the
line that the line feeds among them give (`Place.Behind`).
-/

namespace Abacus

open Lexeme (next? next?_append spells_of_next?)

variable {kind : Kind} {p : Place} {token : Token} {tokens : List Token}
variable {cs text gap last : List Char} {layout : Layout} {items : List (List Char × Lexeme)}

-- ---------------------------------------------------------------------------
-- Trivia before a gap
-- ---------------------------------------------------------------------------

theorem Gap.append_blanks (h : ∀ c ∈ text, isBlank c = true) (hg : Gap gap) :
    Gap (text ++ gap) := by
  induction text with
  | nil => exact hg
  | cons c text ih =>
    rw [List.forall_mem_cons] at h
    exact .space (.inl h.1) (ih h.2)

theorem Lexeme.IsToken.exists_head {lexeme : Lexeme} (h : lexeme.IsToken) :
    ∃ c tail, lexeme.text.toList = c :: tail ∧ isCommentChar c = true := by
  obtain ⟨c, tail, ht, -, hc⟩ | ⟨c, tail, ht, -, hc⟩ | ⟨c, tail, ht, -, -, -, hc, -⟩ := h.cases
  · exact ⟨c, tail, ht, isCommentChar_of_isWordChar (isWordChar_of_isLetter hc)⟩
  · exact ⟨c, tail, ht, isCommentChar_of_isWordChar (isWordChar_of_isDigit hc)⟩
  · exact ⟨c, tail, ht, hc⟩

theorem Gap.append_trivia (hs : Spells kind text) (hk : kind.isTrivia = true) (hg : Gap gap)
    (hstop : kind = .comment → ∃ c ∈ gap.head?, isCommentChar c = false) : Gap (text ++ gap) := by
  cases hs with
  | comment ht =>
    obtain ⟨c, hc, hend⟩ := hstop rfl
    obtain ⟨tail, rfl⟩ := List.head?_eq_some_iff.mp hc
    exact .comment ht (isCommentChar_eq_false_iff.mp hend) hg
  | lineBreak => exact .space (.inr rfl) hg
  | blank _ hb => exact .append_blanks hb hg
  | @keyword word kind hm =>
    have hword : ∀ entry ∈ keywords, entry.2.isTrivia = false := by decide
    rw [hword (word, kind) hm] at hk
    cases hk
  | _ => cases hk

theorem Stops.isCommentChar_eq_false (h : Stops text cs) (hs : Spells .comment text) {c : Char}
    (hc : c ∈ cs.head?) : isCommentChar c = false := by
  have hstop := h c hc
  cases hs with
  | comment => exact hstop
  | keyword hm => simp [keywords] at hm

theorem LastGap.append_trivia (hs : Spells kind text) (hk : kind.isTrivia = true)
    (hl : LastGap last) (hstop : Stops text last) : LastGap (text ++ last) := by
  have hends (hc : kind = .comment) {gap tail : List Char} (hne : gap ≠ [])
      (hl : last = gap ++ tail) : ∃ c ∈ gap.head?, isCommentChar c = false := by
    subst hc hl
    obtain ⟨c, gap, rfl⟩ := List.exists_cons_of_ne_nil hne
    exact ⟨c, rfl, hstop.isCommentChar_eq_false hs rfl⟩
  cases hl with
  | gap hg =>
    by_cases hempty : kind = .comment ∧ last = []
    · obtain ⟨rfl, rfl⟩ := hempty
      cases hs with
      | comment ht => simpa using LastGap.comment .nil ht
      | keyword hm => simp [keywords] at hm
    · refine .gap (.append_trivia hs hk hg fun hc => ?_)
      exact hends hc (fun hnil => hempty ⟨hc, hnil⟩) (List.append_nil _).symm
  | @comment gap body hg ht =>
    rw [← List.append_assoc]
    refine .comment (.append_trivia hs hk hg fun hc => ?_) ht
    by_cases hne : gap = []
    · subst hc hne
      cases hstop.isCommentChar_eq_false hs rfl
    · exact hends hc hne rfl

-- ---------------------------------------------------------------------------
-- Layouts with something in front
-- ---------------------------------------------------------------------------

def Layout.indent (text : List Char) : Layout → Layout
  | ⟨[], last⟩ => ⟨[], text ++ last⟩
  | ⟨(gap, lexeme) :: items, last⟩ => ⟨(text ++ gap, lexeme) :: items, last⟩

namespace Layout

theorem text_indent (text : List Char) (layout : Layout) :
    (layout.indent text).text = text ++ layout.text := by
  obtain ⟨_ | ⟨⟨gap, lexeme⟩, items⟩, last⟩ := layout <;> simp [indent, Layout.text, textOf]

theorem laid_indent (p : Place) (text : List Char) (layout : Layout) :
    p.laid (layout.indent text).items = (p.after (String.ofList text)).laid layout.items := by
  obtain ⟨_ | ⟨⟨gap, lexeme⟩, items⟩, last⟩ := layout
  · rfl
  · simp only [indent, Place.laid, String.ofList_append, Place.after_append]

theorem WellSpaced.indent (h : layout.WellSpaced) (hs : Spells kind text)
    (hk : kind.isTrivia = true) (hstop : Stops text layout.text) :
    (layout.indent text).WellSpaced := by
  obtain ⟨_ | ⟨⟨gap, lexeme⟩, items⟩, last⟩ := layout
  · exact ⟨nofun, nofun, .append_trivia hs hk h.last hstop, .nil⟩
  · have htoken : lexeme.IsToken := h.tokens (gap, lexeme) List.mem_cons_self
    have hgap : Gap gap := h.gaps (gap, lexeme) List.mem_cons_self
    -- No token starts at the line end of a comment, so it stands in the gap.
    have hends (hc : kind = .comment) : ∃ c ∈ gap.head?, isCommentChar c = false := by
      subst hc
      rw [Layout.text, textOf_cons, List.append_assoc, List.append_assoc] at hstop
      cases gap with
      | nil =>
        obtain ⟨c, tail, ht, hc⟩ := htoken.exists_head
        rw [ht] at hstop
        rw [hstop.isCommentChar_eq_false hs rfl] at hc
        cases hc
      | cons c gap => exact ⟨c, rfl, hstop.isCommentChar_eq_false hs rfl⟩
    refine ⟨List.forall_mem_cons.mpr ⟨htoken, h.tail.tokens⟩,
      List.forall_mem_cons.mpr ⟨.append_trivia hs hk hgap hends, h.tail.gaps⟩, h.last, ?_⟩
    cases items with
    | nil => exact .singleton _
    | cons => exact List.isChain_cons_cons.mpr (List.isChain_cons_cons.mp h.apart)

theorem WellSpaced.cons (h : layout.WellSpaced) {lexeme : Lexeme} (ht : lexeme.IsToken)
    (hstop : Stops lexeme.text.toList layout.text) :
    WellSpaced ⟨([], lexeme) :: layout.items, layout.last⟩ := by
  obtain ⟨items, last⟩ := layout
  refine ⟨List.forall_mem_cons.mpr ⟨ht, h.tokens⟩, List.forall_mem_cons.mpr ⟨.nil, h.gaps⟩,
    h.last, ?_⟩
  cases items with
  | nil => exact .singleton _
  | cons item items =>
    obtain ⟨gap, next⟩ := item
    have hnext : next.IsToken := h.tokens (gap, next) List.mem_cons_self
    refine List.isChain_cons_cons.mpr ⟨?_, h.apart⟩
    rintro hglues rfl
    rw [Layout.text, textOf_cons, List.nil_append, List.append_assoc, ht.stops_iff hnext] at hstop
    exact hstop hglues

end Layout

theorem exists_wellSpaced (h : tokenizeFrom p cs = .ok tokens) :
    ∃ layout : Layout, layout.WellSpaced ∧ layout.text = cs ∧ p.laid layout.items = tokens := by
  induction cs using Lexeme.split.induct generalizing p tokens with
  | case1 cs lexeme rest hn ih =>
    have hstop := stops_of_next? hn
    rw [tokenizeFrom_of_next? hn] at h
    split at h
    next hk =>
      obtain ⟨layout, hspaced, rfl, rfl⟩ := ih h
      refine ⟨layout.indent lexeme.text.toList, ?_, ?_, ?_⟩
      · exact hspaced.indent (spells_of_next? hn) hk hstop
      · rw [Layout.text_indent, next?_append hn]
      · rw [Layout.laid_indent, String.ofList_toList]
    next hk =>
      rcases hrest : tokenizeFrom (p.after lexeme.text) rest with e | others
      · rw [hrest] at h
        cases h
      · rw [hrest] at h
        cases h
        obtain ⟨layout, hspaced, rfl, rfl⟩ := ih hrest
        have htoken : lexeme.IsToken :=
          ⟨Bool.eq_false_iff.mpr hk, spells_of_next? hn, (munches_of_next? hn).not_mem_keywords⟩
        refine ⟨_, hspaced.cons htoken hstop, ?_, ?_⟩
        · rw [Layout.text, textOf_cons, List.nil_append, List.append_assoc]
          exact next?_append hn
        · rw [Place.laid, p.after_nil]
  | case2 cs hn =>
    cases cs with
    | nil =>
      rw [tokenizeFrom_nil] at h
      cases h
      refine ⟨⟨[], []⟩, ⟨?_, ?_, .gap .nil, .nil⟩, rfl, rfl⟩
      · exact List.forall_mem_nil _
      · exact List.forall_mem_nil _
    | cons c cs =>
      rw [tokenizeFrom_of_next?_eq_none hn] at h
      cases h

-- ---------------------------------------------------------------------------
-- Places
-- ---------------------------------------------------------------------------

/-- The place behind `before` in a source: this is what the bytes before the offset
spell, and its line feeds give the line. -/
structure Place.Behind (p : Place) (source before : String) : Prop where
  boundary : (String.Pos.Raw.mk p.offset).IsValid source
  bytes : source.toByteArray.extract 0 p.offset = before.toByteArray
  line : p.line = 1 + before.toList.count '\n'

theorem Place.behind_after (before after : String) :
    (Place.start.after before).Behind (before ++ after) before where
  boundary := by
    refine String.Pos.Raw.isValid_iff_exists_append.mpr ⟨before, after, rfl, ?_⟩
    rw [Place.after, Place.start, Nat.zero_add]
    rfl
  bytes := by
    rw [String.toByteArray_append]
    refine ByteArray.extract_append_eq_left ?_
    simp [Place.after, Place.start]
  line := rfl

theorem bytes_extract_append (before text after : String) :
    (before ++ (text ++ after)).toByteArray.extract before.utf8ByteSize
      (before.utf8ByteSize + text.utf8ByteSize) = text.toByteArray := by
  have hbefore : before.utf8ByteSize = before.toByteArray.size := String.size_toByteArray.symm
  have hshift := ByteArray.extract_append_size_add' (b := (text ++ after).toByteArray) (i := 0)
    (j := text.utf8ByteSize) hbefore
  rw [Nat.add_zero] at hshift
  rw [String.toByteArray_append, hshift, String.toByteArray_append]
  exact ByteArray.extract_append_eq_left String.size_toByteArray.symm

theorem offset_le_of_mem_laid (h : token ∈ p.laid items) : p.offset ≤ token.offset := by
  induction items generalizing p with
  | nil => cases h
  | cons item items ih =>
    obtain ⟨gap, lexeme⟩ := item
    rcases List.mem_cons.mp h with rfl | h
    · exact Nat.le_add_right _ _
    · have hle := ih h
      simp only [Place.after] at hle
      omega

theorem pairwise_laid (p : Place) (items : List (List Char × Lexeme)) :
    (p.laid items).Pairwise fun token next =>
      token.offset + token.text.utf8ByteSize ≤ next.offset := by
  induction items generalizing p with
  | nil => exact .nil
  | cons item items ih =>
    obtain ⟨gap, lexeme⟩ := item
    exact .cons (fun next hm => offset_le_of_mem_laid hm) (ih _)

/-- The tokens of a source stand in it in order, each where its place says, and
tile it with gaps. Where a source cannot be cut, the error has the place behind the
part that can. -/
theorem tokens_tile_source (source : String) :
    (∀ tokens, tokenize source = .ok tokens →
      (∀ token ∈ tokens, (∃ before, token.toPlace.Behind source before) ∧
        source.toByteArray.extract token.offset (token.offset + token.text.utf8ByteSize) =
          token.text.toByteArray) ∧
      tokens.Pairwise (fun token next => token.offset + token.text.utf8ByteSize ≤ next.offset) ∧
      ∃ layout : Layout, layout.WellSpaced ∧ layout.text = source.toList ∧
        layout.tokens = tokens) ∧
    ∀ e, tokenize source = .error e → ∃ before, e.toPlace.Behind source before ∧
      ∃ tokens, tokenize before = .ok tokens := by
  have hscan : Scans .start source.toList (tokenize source) := scans_tokenizeFrom _ _
  have hwhole {before ahead : List Char} (h : before ++ ahead = source.toList) :
      source = String.ofList before ++ String.ofList ahead := by
    rw [← String.ofList_append, h, String.ofList_toList]
  refine ⟨fun tokens htokens => ⟨fun token hm => ?_, ?_⟩, fun e he => ?_⟩
  · obtain ⟨after, hpass, -⟩ := hscan.passes_token htokens hm
    obtain ⟨before, hsource, hplace⟩ := hpass.exists_append
    have hoffset : token.offset = (String.ofList before).utf8ByteSize :=
      (congrArg Place.offset hplace).trans (Nat.zero_add _)
    refine ⟨⟨String.ofList before, ?_⟩, ?_⟩
    · rw [hwhole hsource, hplace]
      exact Place.behind_after _ _
    · rw [hoffset, hwhole hsource, String.ofList_append, String.ofList_toList]
      exact bytes_extract_append _ _ _
  · obtain ⟨layout, hspaced, htext, hlaid⟩ := exists_wellSpaced htokens
    exact ⟨hlaid ▸ pairwise_laid _ _, layout, hspaced, htext, hlaid⟩
  · obtain ⟨c, after, hpass, -⟩ := hscan.passes_error he
    obtain ⟨before, hsource, hplace, htileable⟩ := hpass.exists_tileable
    refine ⟨String.ofList before, ?_, ?_⟩
    · rw [hwhole hsource, hplace]
      exact Place.behind_after _ _
    · rw [tokenize, String.toList_ofList]
      exact (exists_tokenizeFrom_eq_ok_iff .start before).mpr htileable

end Abacus
