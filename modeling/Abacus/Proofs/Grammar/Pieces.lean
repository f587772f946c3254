import Mathlib.Data.List.Forall2
import Abacus.Proofs.Cursor.Calls

/-!
# Statements are read piece by piece

`pieces` cuts tokens behind each semicolon. The automaton takes no semicolon within a
statement, however many parentheses are open, so what it makes of a piece does not depend
on what stands behind the semicolon. Reading a program is the same as reading its pieces
one by one, each on its own. Where one of them cannot be read to its end, or lacks its
semicolon, the program is in error just where the reading of that piece stops.
-/

namespace Abacus

open Cursor (follow follow_eq_iff follow_cons_none)

/-- Tokens without a semicolon, and the semicolon behind them, if there is one. -/
structure Piece where
  body : List Token
  semicolon? : Option Token
  free : ∀ token ∈ body, token.kind ≠ .semicolon
  ends : ∀ token ∈ semicolon?, token.kind = .semicolon

def Piece.tokens (piece : Piece) : List Token := piece.body ++ piece.semicolon?.toList

variable {rule : Rule} {phase next : Phase} {item : Node} {items : List Node} {piece : Piece}
variable {tokens body : List Token} {token : Token} {cursor stop : Cursor} {e : SyntaxError}

-- ---------------------------------------------------------------------------
-- Cutting behind semicolons
-- ---------------------------------------------------------------------------

def pieces : List Token → List Piece
  | [] => []
  | token :: rest =>
    if h : token.kind = .semicolon then ⟨[], some token, by simp, by simpa using h⟩ :: pieces rest
    else
      match pieces rest with
      | [] => [⟨[token], none, by simpa using h, by simp⟩]
      | piece :: others =>
        ⟨token :: piece.body, piece.semicolon?, by simpa [h] using piece.free, piece.ends⟩ :: others

theorem flatMap_pieces (tokens : List Token) : (pieces tokens).flatMap Piece.tokens = tokens := by
  fun_induction pieces tokens with
  | case1 => rfl
  | case2 token rest h ih => simp [Piece.tokens, ih]
  | case3 token rest h hrest ih =>
    obtain rfl : [] = rest := by simpa [hrest] using ih
    rfl
  | case4 token rest h piece others hrest ih => simpa [hrest, Piece.tokens] using ih

theorem pieces_append {semicolon : Token} (hb : ∀ token ∈ body, token.kind ≠ .semicolon)
    (hs : semicolon.kind = .semicolon) (rest : List Token) :
    pieces (body ++ semicolon :: rest) =
      ⟨body, some semicolon, hb, by simpa using hs⟩ :: pieces rest := by
  induction body with
  | nil => simp [pieces, hs]
  | cons token body ih =>
    rw [List.forall_mem_cons] at hb
    simp [pieces, hb.1, ih hb.2]

theorem countP_pieces (tokens : List Token) :
    (pieces tokens).countP (·.semicolon?.isSome) = tokens.countP (·.kind = .semicolon) := by
  fun_induction pieces tokens with
  | case1 => rfl
  | case2 token rest h ih => simp [h, ih]
  | case3 token rest h hrest ih => simpa [hrest, h] using ih
  | case4 token rest h piece others hrest ih => simpa [hrest, h, List.countP_cons] using ih

theorem eq_nil_of_semicolon?_eq_none {done later : List Piece}
    (h : pieces tokens = done ++ piece :: later) (hn : piece.semicolon? = none) : later = [] := by
  fun_induction pieces tokens generalizing done piece with
  | case1 => simp at h
  | case2 token rest hk ih =>
    obtain ⟨-, hfirst⟩ | ⟨_, -, hrest⟩ := List.cons_eq_append_iff.mp h
    · cases hfirst
      cases hn
    · exact ih hrest hn
  | case3 token rest hk hrest ih =>
    obtain ⟨-, hfirst⟩ | ⟨_, -, hrest⟩ := List.cons_eq_append_iff.mp h
    · exact (List.cons.inj hfirst).2
    · simp at hrest
  | case4 token rest hk first others hrest ih =>
    obtain ⟨-, hfirst⟩ | ⟨done, -, hothers⟩ := List.cons_eq_append_iff.mp h
    · cases hfirst
      have hbehind : pieces rest = [] ++ first :: later := hrest
      exact ih hbehind hn
    · have hbehind : pieces rest = (first :: done) ++ piece :: later := by simp [hrest, hothers]
      exact ih hbehind hn

theorem forall_semicolon?_isSome_iff :
    (∀ piece ∈ pieces tokens, piece.semicolon?.isSome) ↔
      ∀ token ∈ tokens.getLast?, token.kind = .semicolon := by
  fun_induction pieces tokens with
  | case1 => simp
  | case2 token rest h ih => cases rest <;> simp_all [List.getLast?_cons]
  | case3 token rest h hrest ih =>
    have hflat := flatMap_pieces rest
    simp_all
  | case4 token rest h piece others hrest ih =>
    cases rest with
    | nil => simp [pieces] at hrest
    | cons => simp_all [List.getLast?_cons]

-- ---------------------------------------------------------------------------
-- Pieces that are statements
-- ---------------------------------------------------------------------------

theorem Phase.advance?_semicolon (h : token.kind = .semicolon) (phase : Phase) :
    phase.advance? token = none := by
  cases phase <;> simp [advance?, Token.leaf?, Kind.op?, h]

theorem Phase.kind_ne_semicolon (h : tokens.foldlM advance? phase = some next)
    (hm : token ∈ tokens) : token.kind ≠ .semicolon := by
  induction tokens generalizing phase with
  | nil => simp at hm
  | cons first tokens ih =>
    simp only [List.foldlM_cons, Option.bind_eq_bind, Option.bind_eq_some_iff] at h
    obtain ⟨middle, hfirst, h⟩ := h
    rcases List.mem_cons.mp hm with rfl | hm
    · intro hk
      simp [advance?_semicolon hk] at hfirst
    · exact ih h hm

theorem Derives.kind_ne_semicolon (h : Derives .statement tokens item) (hm : token ∈ tokens) :
    token.kind ≠ .semicolon := by
  obtain ⟨goal, left, hreads, -⟩ := h.reads (by simp)
  exact Phase.kind_ne_semicolon hreads.foldlM_start hm

namespace Piece

/-- What a piece is read as, without its semicolon and from a cursor of its own. -/
def alone (piece : Piece) : Except SyntaxError Node × Cursor :=
  (Cursor.start piece.body).read .statement

def ReadsAs (piece : Piece) (item : Node) : Prop :=
  piece.alone = (.ok item, ⟨[], piece.body.length⟩)

def IsComplete (piece : Piece) : Prop := piece.semicolon?.isSome ∧ ∃ item, piece.ReadsAs item

theorem readsAs_iff : piece.ReadsAs item ↔ Derives .statement piece.body item := by
  simp [ReadsAs, alone, Cursor.read_eq_ok_iff, Cursor.start, Rule.endsBefore_nil]

end Piece

theorem derives_code_of_readsAs {all : List Piece} (h : List.Forall₂ Piece.ReadsAs all items)
    (hs : ∀ piece ∈ all, piece.semicolon?.isSome) :
    Derives .code (all.flatMap Piece.tokens) (.block items) := by
  induction h with
  | nil => exact .noStatements
  | @cons piece item all items hread _ ih =>
    rw [List.forall_mem_cons] at hs
    obtain ⟨semicolon, hsome⟩ := Option.isSome_iff_exists.mp hs.1
    have hcode := Derives.moreStatements (Piece.readsAs_iff.mp hread) (piece.ends _ hsome) (ih hs.2)
    simpa [Piece.tokens, hsome] using hcode

theorem Derives.forall₂_pieces (h : Derives .code tokens (.block items)) :
    List.Forall₂ Piece.ReadsAs (pieces tokens) items ∧
      ∀ piece ∈ pieces tokens, piece.IsComplete := by
  generalize hrule : Rule.code = rule at h
  generalize hnode : Node.block items = node at h
  induction h generalizing items with
  | noStatements =>
    cases hnode
    simp [pieces]
  | @moreStatements _ _ _ item _ hfirst hsemi _ _ ih =>
    cases hnode
    obtain ⟨hreads, hcomplete⟩ := ih rfl rfl
    simp only [pieces_append (fun _ => hfirst.kind_ne_semicolon) hsemi, List.forall_mem_cons]
    exact ⟨.cons (Piece.readsAs_iff.mpr hfirst) hreads,
      ⟨rfl, item, Piece.readsAs_iff.mpr hfirst⟩, hcomplete⟩
  | _ => cases hrule

theorem exists_derives_code {all : List Piece} (h : ∀ piece ∈ all, piece.IsComplete) :
    ∃ items, Derives .code (all.flatMap Piece.tokens) (.block items) := by
  have : Nonempty Node := ⟨.block []⟩
  choose! item hitem using fun piece hm => (h piece hm).2
  have hreads : List.Forall₂ Piece.ReadsAs all (all.map item) :=
    List.forall₂_map_right_iff.mpr (List.forall₂_same.mpr hitem)
  exact ⟨all.map item, derives_code_of_readsAs hreads fun piece hm => (h piece hm).1⟩

-- ---------------------------------------------------------------------------
-- The first piece that is not complete
-- ---------------------------------------------------------------------------

namespace Cursor

theorem snd_readFrom (cursor : Cursor) (phase : Phase) :
    (cursor.readFrom phase).2 = (follow Phase.advance? phase cursor.position cursor.rest).2 := by
  simp only [readFrom]
  split <;> rfl

theorem snd_readCode (cursor : Cursor) :
    cursor.readCode.2 = (follow Progress.advance? .start cursor.position cursor.rest).2 := by
  simp only [readCode]
  split <;> rfl

theorem position_of_error (h : (cursor.read rule).1 = .error e) :
    e.position = (cursor.read rule).2.position := by
  have herror : (Answer.tree (cursor.read rule).1).error? = some e := by simp [h, Answer.error?]
  obtain ⟨kinds, rfl, -⟩ := (cursor.answers_read rule).expected_of_error herror
  exact position_expected _ _

end Cursor

theorem Progress.advance?_eq_none (h : phase.advance? token = none)
    (hs : token.kind = .semicolon → phase.result? = none) (items : List Node) :
    Progress.advance? ⟨items, phase⟩ token = none := by
  simp only [Progress.advance?, h]
  split
  next hk hr => simp [hs hk] at hr
  next => rfl

/-- Where the reading of an incomplete piece stops, a program cannot go on either. -/
theorem Piece.advance?_eq_none (hp : ¬ piece.IsComplete)
    (hf : follow Phase.advance? .statement 0 piece.body = (phase, stop)) (items : List Node) :
    ∀ token ∈ (stop.rest ++ piece.semicolon?.toList).head?,
      Progress.advance? ⟨items, phase⟩ token = none := by
  obtain ⟨taken, hbody, hposition, -, hrefused⟩ := follow_eq_iff.mp hf
  intro token hm
  cases hrest : stop.rest with
  | cons first rest =>
    obtain rfl : first = token := by simpa [hrest] using hm
    have hfree : first.kind ≠ .semicolon := piece.free first (by simp [← hbody, hrest])
    exact Progress.advance?_eq_none (hrefused first (by simp [hrest])) (absurd · hfree) items
  | nil =>
    -- All of the piece was taken, so it lacks a result.
    have hsome : piece.semicolon? = some token := by simpa [hrest] using hm
    have hk := piece.ends token hsome
    refine Progress.advance?_eq_none (Phase.advance?_semicolon hk phase) (fun _ => ?_) items
    by_contra hresult
    obtain ⟨item, hitem⟩ := Option.ne_none_iff_exists'.mp hresult
    obtain ⟨rest, position⟩ := stop
    obtain rfl : rest = [] := hrest
    refine hp ⟨by simp [hsome], item, ?_⟩
    simp_all [ReadsAs, alone, Cursor.read, Cursor.readFrom, Cursor.start]

theorem exists_first_incomplete {all : List Piece} (h : ∃ piece ∈ all, ¬ piece.IsComplete) :
    ∃ done piece later, all = done ++ piece :: later ∧ (∀ before ∈ done, before.IsComplete) ∧
      ¬ piece.IsComplete := by
  classical
  have hfind : (all.find? fun piece => ¬ piece.IsComplete).isSome := by simpa using h
  obtain ⟨piece, hpiece⟩ := Option.isSome_iff_exists.mp hfind
  obtain ⟨hp, done, later, hsplit, hd⟩ := List.find?_eq_some_iff_append.mp hpiece
  exact ⟨done, piece, later, hsplit, by simpa using hd, by simpa using hp⟩

/-- Behind complete pieces, a program is read into an incomplete one just as far as that
piece is read alone. -/
theorem Cursor.position_read_code {done later : List Piece}
    (hd : ∀ before ∈ done, before.IsComplete) (hp : ¬ piece.IsComplete)
    (hl : piece.semicolon? = none → later = []) :
    ((start ((done ++ piece :: later).flatMap Piece.tokens)).read .code).2.position =
      (done.flatMap Piece.tokens).length + piece.alone.2.position := by
  obtain ⟨items, hitems⟩ := exists_derives_code hd
  rcases hf : follow Phase.advance? .statement 0 piece.body with ⟨phase, stop⟩
  obtain ⟨taken, hbody, hposition, htaken, -⟩ := follow_eq_iff.mp hf
  have halone : piece.alone.2 = stop := by simp [Piece.alone, read, snd_readFrom, start, hf]
  let left := stop.rest ++ piece.semicolon?.toList ++ later.flatMap Piece.tokens
  have hrefused : ∀ token ∈ left.head?, Progress.advance? ⟨items.reverse, phase⟩ token = none := by
    intro token hm
    refine Piece.advance?_eq_none hp hf _ token ?_
    cases hnone : piece.semicolon? with
    | none => simpa [left, hnone, hl hnone] using hm
    | some semicolon => cases hrest : stop.rest <;> simpa [left, hnone, hrest] using hm
  have hcode : (done.flatMap Piece.tokens ++ taken).foldlM Progress.advance? .start =
      some ⟨items.reverse, phase⟩ := by
    have hitems := hitems.foldlM_code []
    have hphase := Progress.foldlM_phase htaken items.reverse
    simp_all [Progress.start]
  have hfollow : follow Progress.advance? .start 0 ((done ++ piece :: later).flatMap Piece.tokens) =
      (⟨items.reverse, phase⟩, ⟨left, (done.flatMap Piece.tokens).length + stop.position⟩) := by
    refine follow_eq_iff.mpr ⟨_, ?_, ?_, hcode, hrefused⟩
    · simp [left, Piece.tokens, ← hbody]
    · simp [hposition]
  simp only [read, snd_readCode, start, hfollow, halone]

-- ---------------------------------------------------------------------------
-- Programs
-- ---------------------------------------------------------------------------

/-- Tokens are a program exactly if they end with a semicolon, where there are any, and
each piece is read to its end on its own; the statements of the program are then those of
the pieces, one for each semicolon. Otherwise the error is in the first piece that is not
read to its end or lacks its semicolon, where the reading of that piece alone stops. -/
theorem parse_piece_by_piece (tokens : List Token) :
    (∀ node, parse tokens = .ok node ↔
      (∀ token ∈ tokens.getLast?, token.kind = .semicolon) ∧
      ∃ items, node = .block items ∧ List.Forall₂ Piece.ReadsAs (pieces tokens) items) ∧
    (∀ items, parse tokens = .ok (.block items) →
      items.length = tokens.countP (·.kind = .semicolon)) ∧
    ∀ e, parse tokens = .error e → ∃ done piece later,
      pieces tokens = done ++ piece :: later ∧ (∀ before ∈ done, before.IsComplete) ∧
      ¬ piece.IsComplete ∧
      e.position = (done.flatMap Piece.tokens).length + piece.alone.2.position := by
  simp only [parse_eq_ok_iff, ← forall_semicolon?_isSome_iff]
  refine ⟨fun node => ?_, fun items hcode => ?_, fun e he => ?_⟩
  · constructor
    · intro hcode
      obtain ⟨items, rfl⟩ := hcode.code_eq_block
      obtain ⟨hreads, hcomplete⟩ := hcode.forall₂_pieces
      exact ⟨fun piece hm => (hcomplete piece hm).1, items, rfl, hreads⟩
    · rintro ⟨hsome, items, rfl, hreads⟩
      simpa [flatMap_pieces] using derives_code_of_readsAs hreads hsome
  · obtain ⟨hreads, hcomplete⟩ := hcode.forall₂_pieces
    rw [← hreads.length_eq, ← countP_pieces, eq_comm, List.countP_eq_length]
    exact fun piece hm => (hcomplete piece hm).1
  · have hincomplete : ∃ piece ∈ pieces tokens, ¬ piece.IsComplete := by
      by_contra! hall
      obtain ⟨items, hitems⟩ := exists_derives_code hall
      simp [parse_eq_ok_iff.mpr (flatMap_pieces tokens ▸ hitems)] at he
    obtain ⟨done, piece, later, hsplit, hd, hp⟩ := exists_first_incomplete hincomplete
    refine ⟨done, piece, later, hsplit, hd, hp, ?_⟩
    have hposition := Cursor.position_read_code hd hp (eq_nil_of_semicolon?_eq_none hsplit)
    rw [← hsplit, flatMap_pieces] at hposition
    exact (Cursor.position_of_error he).trans hposition

end Abacus
