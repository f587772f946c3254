import Abacus.Proofs.Grammar.ViablePrefix

/-!
# Calls on one cursor

A cursor can be asked for a token or for a construct, any number of times and also
after it has refused. `Cursor.Answers` says all that one call can do: it takes a token,
reads a construct, or stops before a token that it has no use for. So over any calls
the cursor stays within its tokens and never goes back (`Cursor.moves_after`), and a
call that fails leaves it where the error is.
-/

namespace Abacus

open Cursor (follow follow_eq_iff)

inductive Call where
  | matchAny (kinds : List Kind)
  | require (kinds : List Kind)
  | read (rule : Rule)
  deriving DecidableEq, Repr

inductive Answer where
  | matched (token : Option Token)
  | required (token : Except SyntaxError Token)
  | tree (node : Except SyntaxError Node)

/-- The error of a call that failed. A token that is not there to be matched is no
error. -/
def Answer.error? : Answer → Option SyntaxError
  | .required (.error e) | .tree (.error e) => some e
  | _ => none

variable {cursor next last : Cursor} {call : Call} {answer : Answer} {e : SyntaxError}
variable {rule : Rule} {phase : Phase} {progress : Progress} {node : Node} {token : Token}
variable {tokens : List Token}

namespace Cursor

def ask (cursor : Cursor) : Call → Answer × Cursor
  | .matchAny kinds => (cursor.matchAny kinds).map .matched id
  | .require kinds => (cursor.require kinds).map .required id
  | .read rule => (cursor.read rule).map .tree id

def after (cursor : Cursor) (calls : List Call) : Cursor :=
  calls.foldl (fun cursor call => (cursor.ask call).2) cursor

-- ---------------------------------------------------------------------------
-- One call
-- ---------------------------------------------------------------------------

def Moves (cursor next : Cursor) : Prop :=
  ∃ taken, taken ++ next.rest = cursor.rest ∧ next.position = cursor.position + taken.length

def StandsAtNone (cursor : Cursor) (kinds : List Kind) : Prop :=
  ∀ token ∈ cursor.rest.head?, token.kind ∉ kinds

/-- What a call can do: its answer, and the cursor after it. -/
inductive Answers (cursor : Cursor) : Call → Answer → Cursor → Prop
  | missed {kinds : List Kind} : cursor.StandsAtNone kinds →
      Answers cursor (.matchAny kinds) (.matched none) cursor
  | matched {kinds : List Kind} {token : Token} {rest : List Token} :
      cursor.rest = token :: rest → token.kind ∈ kinds →
      Answers cursor (.matchAny kinds) (.matched (some token)) ⟨rest, cursor.position + 1⟩
  | required {kinds : List Kind} {token : Token} {rest : List Token} :
      cursor.rest = token :: rest → token.kind ∈ kinds →
      Answers cursor (.require kinds) (.required (.ok token)) ⟨rest, cursor.position + 1⟩
  | notRequired {kinds : List Kind} : cursor.StandsAtNone kinds →
      Answers cursor (.require kinds) (.required (.error (cursor.expected kinds))) cursor
  | tree {rule : Rule} {node : Node} {taken : List Token} {next : Cursor} :
      taken ++ next.rest = cursor.rest → next.position = cursor.position + taken.length →
      Derives rule taken node → rule.EndsBefore next.rest →
      Answers cursor (.read rule) (.tree (.ok node)) next
  | noTree {rule : Rule} {kinds : List Kind} {next : Cursor} :
      Moves cursor next → next.StandsAtNone kinds →
      Answers cursor (.read rule) (.tree (.error (next.expected kinds))) next

theorem matchAny_cases (cursor : Cursor) (kinds : List Kind) :
    (cursor.matchAny kinds = (none, cursor) ∧ cursor.StandsAtNone kinds) ∨
    ∃ token rest, cursor.rest = token :: rest ∧ token.kind ∈ kinds ∧
      cursor.matchAny kinds = (some token, ⟨rest, cursor.position + 1⟩) := by
  obtain ⟨rest, position⟩ := cursor
  cases rest with
  | nil => exact .inl ⟨rfl, by simp [StandsAtNone]⟩
  | cons token rest =>
    by_cases hk : token.kind ∈ kinds
    · exact .inr ⟨token, rest, rfl, hk, by simp [matchAny, hk]⟩
    · exact .inl ⟨by simp [matchAny, hk], by simpa [StandsAtNone] using hk⟩

end Cursor

theorem Phase.kind_not_mem_expected (hs : phase.advance? token = none)
    (hr : phase.result? = none) : token.kind ∉ phase.expected := by
  intro hm
  cases phase with
  | operator goal outer left =>
    cases outer with
    | nil => cases hr
    | cons pending outer =>
      have hk : token.kind = .closeParen := List.mem_singleton.mp hm
      rw [Phase.advance?_closeParen hk] at hs
      cases hs
  | operand goal outer pending =>
    simp only [expected, List.mem_cons, List.not_mem_nil, or_false] at hm
    rcases hm with hk | hk | hk <;> simp [advance?, Token.leaf?, hk] at hs
  | assignment =>
    simp only [expected, List.mem_cons, List.not_mem_nil, or_false] at hm
    rcases hm with hk | hk <;> simp [advance?, Token.leaf?, hk] at hs
  | _ =>
    have hk := List.mem_singleton.mp hm
    simp [advance?, hk] at hs

/-- A program is not refused a semicolon behind a complete statement, so what it is
refused is what it does not name. -/
theorem Progress.kind_not_mem_expected (hs : progress.advance? token = none) :
    token.kind ∉ progress.phase.expected := by
  obtain ⟨items, phase⟩ := progress
  simp only [Progress.advance?] at hs
  cases hp : phase.advance? token with
  | some next => simp [hp] at hs
  | none =>
    cases hr : phase.result? with
    | none => exact Phase.kind_not_mem_expected hp hr
    | some item =>
      intro hm
      cases phase with
      | operator goal outer left =>
        cases outer with
        | nil =>
          have hk : token.kind = .semicolon := List.mem_singleton.mp hm
          simp [hp, hk, hr] at hs
        | cons pending outer => cases hr
      | _ => cases hr

namespace Cursor

theorem answers_read (cursor : Cursor) (rule : Rule) :
    Answers cursor (.read rule) (.tree (cursor.read rule).1) (cursor.read rule).2 := by
  rcases hread : cursor.read rule with ⟨e | node, next⟩
  · by_cases hrule : rule = .code
    · subst hrule
      rcases hf : follow Progress.advance? .start cursor.position cursor.rest with ⟨progress, stop⟩
      obtain ⟨taken, ht, hp, -, hstop⟩ := follow_eq_iff.mp hf
      simp only [read, readCode, hf] at hread
      split at hread
      next => cases hread
      next =>
        cases hread
        exact .noTree ⟨taken, ht, hp⟩ fun token hm => Progress.kind_not_mem_expected (hstop token hm)
    · rcases hf : follow Phase.advance? rule.start cursor.position cursor.rest with ⟨phase, stop⟩
      obtain ⟨taken, ht, hp, -, hstop⟩ := follow_eq_iff.mp hf
      rw [read_eq_readFrom hrule] at hread
      simp only [readFrom, hf] at hread
      split at hread
      next => cases hread
      next hr =>
        cases hread
        exact .noTree ⟨taken, ht, hp⟩ fun token hm => Phase.kind_not_mem_expected (hstop token hm) hr
  · obtain ⟨taken, ht, hp, hderives, hends⟩ := read_eq_ok_iff.mp hread
    exact .tree ht hp hderives hends

theorem answers_ask (cursor : Cursor) (call : Call) :
    Answers cursor call (cursor.ask call).1 (cursor.ask call).2 := by
  cases call with
  | matchAny kinds =>
    obtain ⟨hm, hnone⟩ | ⟨token, rest, hrest, hk, hm⟩ := cursor.matchAny_cases kinds
    · simp only [Cursor.ask, hm]
      exact .missed hnone
    · simp only [Cursor.ask, hm]
      exact .matched hrest hk
  | require kinds =>
    obtain ⟨hm, hnone⟩ | ⟨token, rest, hrest, hk, hm⟩ := cursor.matchAny_cases kinds
    · simp only [Cursor.ask, require, hm]
      exact .notRequired hnone
    · simp only [Cursor.ask, require, hm]
      exact .required hrest hk
  | read rule => exact answers_read cursor rule

-- ---------------------------------------------------------------------------
-- Moving forward
-- ---------------------------------------------------------------------------

theorem Moves.refl (cursor : Cursor) : Moves cursor cursor := ⟨[], rfl, rfl⟩

theorem Moves.trans (h : Moves cursor next) (hn : Moves next last) : Moves cursor last := by
  obtain ⟨taken, hrest, hposition⟩ := h
  obtain ⟨more, hmore, hlast⟩ := hn
  refine ⟨taken ++ more, by rw [List.append_assoc, hmore, hrest], ?_⟩
  rw [hlast, hposition, List.length_append, Nat.add_assoc]

theorem Moves.position_le (h : Moves cursor next) : cursor.position ≤ next.position := by
  obtain ⟨taken, -, hposition⟩ := h
  exact hposition ▸ Nat.le_add_right _ _

theorem Answers.moves (h : Answers cursor call answer next) : Moves cursor next := by
  cases h with
  | missed => exact .refl cursor
  | matched hrest _ => exact ⟨[_], hrest.symm, rfl⟩
  | required hrest _ => exact ⟨[_], hrest.symm, rfl⟩
  | notRequired => exact .refl cursor
  | tree ht hp => exact ⟨_, ht, hp⟩
  | noTree hm => exact hm

theorem moves_after (cursor : Cursor) (calls : List Call) : Moves cursor (cursor.after calls) := by
  induction calls generalizing cursor with
  | nil => exact .refl cursor
  | cons call calls ih => exact (cursor.answers_ask call).moves.trans (ih (cursor.ask call).2)

theorem Moves.eq_seek (h : Moves (start tokens) cursor) :
    cursor = seek tokens cursor.position ∧ cursor.position ≤ tokens.length := by
  obtain ⟨rest, position⟩ := cursor
  obtain ⟨taken, htokens, hlength⟩ := h
  obtain rfl : taken ++ rest = tokens := htokens
  obtain rfl : position = taken.length := hlength.trans (Nat.zero_add _)
  exact ⟨by simp [seek], by simp⟩

end Cursor

-- ---------------------------------------------------------------------------
-- Success and failure
-- ---------------------------------------------------------------------------

theorem Derives.ne_nil (h : Derives rule tokens node) (hr : rule ≠ .code) : tokens ≠ [] := by
  induction h with
  | single _ ih => exact ih (by simp)
  | printStatement _ ih => exact ih (by simp)
  | assignmentStatement _ ih => exact ih (by simp)
  | noStatements => exact absurd rfl hr
  | _ => simp

namespace Cursor

theorem head?_rest_seek (tokens : List Token) (position : Nat) :
    (seek tokens position).rest.head? = tokens[position]? := List.head?_drop

theorem rest_seek_eq_nil_iff {position : Nat} (h : position ≤ tokens.length) :
    (seek tokens position).rest = [] ↔ position = tokens.length := by
  rw [seek, List.drop_eq_nil_iff]
  exact ⟨Nat.le_antisymm h, Nat.le_of_eq ∘ Eq.symm⟩

theorem expected_seek {position : Nat} (h : tokens[position]? = some token) (kinds : List Kind) :
    (seek tokens position).expected kinds = .unexpected kinds token.text position token.line := by
  obtain ⟨hlt, rfl⟩ := List.getElem?_eq_some_iff.mp h
  simp only [seek, expected, List.drop_eq_getElem_cons hlt]

theorem expected_seek_eq_endOfInput_iff {position : Nat} (h : position ≤ tokens.length)
    (kinds : List Kind) :
    (∃ others stop, (seek tokens position).expected kinds = .endOfInput others stop) ↔
      position = tokens.length := by
  constructor
  · rintro ⟨others, stop, he⟩
    cases ht : tokens[position]? with
    | none => exact Nat.le_antisymm h (List.getElem?_eq_none_iff.mp ht)
    | some token =>
      rw [expected_seek ht] at he
      cases he
  · intro hend
    have hrest := (rest_seek_eq_nil_iff h).mpr hend
    simp only [expected, hrest]
    exact ⟨kinds, _, rfl⟩

theorem Answers.eq_of_missed (h : Answers cursor call answer next) (ha : answer = .matched none) :
    next = cursor := by
  cases h with
  | missed => rfl
  | _ => cases ha

theorem Answers.passes (h : Answers cursor call answer next)
    (ha : answer = .matched (some token) ∨ answer = .required (.ok token)) :
    cursor.rest.head? = some token ∧ next.position = cursor.position + 1 := by
  cases h with
  | matched hrest _ =>
    rcases ha with ha | ha
    · cases ha
      exact ⟨by rw [hrest]; rfl, rfl⟩
    · cases ha
  | required hrest _ =>
    rcases ha with ha | ha
    · cases ha
    · cases ha
      exact ⟨by rw [hrest]; rfl, rfl⟩
  | _ => simp at ha

theorem Answers.advances (h : Answers cursor (.read rule) (.tree (.ok node)) next) :
    cursor.position < next.position ∨ rule = .code ∧ cursor.rest = [] ∧ node = .block [] := by
  cases h with
  | @tree _ _ taken _ ht hp hderives hends =>
    cases taken with
    | cons token taken =>
      rw [List.length_cons] at hp
      exact .inl (by omega)
    | nil =>
      by_cases hrule : rule = .code
      · subst hrule
        have hrest : next.rest = [] := hends
        have hnode := hderives.unique .noStatements
        exact .inr ⟨rfl, by rw [← ht, hrest]; rfl, hnode⟩
      · exact absurd rfl (hderives.ne_nil hrule)

theorem read_code_of_rest_eq_nil (h : cursor.rest = []) :
    cursor.read .code = (.ok (.block []), cursor) := by
  refine read_eq_ok_iff.mpr ⟨[], ?_, rfl, .noStatements, h⟩
  rfl

theorem Answers.expected_of_error (h : Answers cursor call answer next)
    (he : answer.error? = some e) : ∃ kinds, e = next.expected kinds ∧ next.StandsAtNone kinds := by
  cases h with
  | notRequired hnone =>
    cases he
    exact ⟨_, rfl, hnone⟩
  | noTree _ hnone =>
    cases he
    exact ⟨_, rfl, hnone⟩
  | _ => cases he

end Cursor

/-- After any calls, whatever they answered, the cursor is at a position in its tokens,
and no later call takes it back. A token that is not matched leaves it in place. A token
that is given is the next one, and is passed. A rule that succeeds passes a token, unless it
reads the program of no tokens at the end. A call that fails leaves the cursor at the
position of the error, which is the end of the tokens or a token that is not of the
kinds named. -/
theorem calls_keep_cursor (tokens : List Token) (calls : List Call) :
    let cursor := (Cursor.start tokens).after calls
    cursor = .seek tokens cursor.position ∧ cursor.position ≤ tokens.length ∧
    (∀ more, cursor.position ≤ ((Cursor.start tokens).after (calls ++ more)).position) ∧
    ∀ call,
      let answer := (cursor.ask call).1
      let next := (cursor.ask call).2
      (answer = .matched none → next = cursor) ∧
      (∀ token, answer = .matched (some token) ∨ answer = .required (.ok token) →
        tokens[cursor.position]? = some token ∧ next.position = cursor.position + 1) ∧
      (∀ rule node, call = .read rule → answer = .tree (.ok node) →
        cursor.position < next.position ∨
        rule = .code ∧ cursor.position = tokens.length ∧ node = .block []) ∧
      (call = .read .code → cursor.position = tokens.length →
        answer = .tree (.ok (.block [])) ∧ next = cursor) ∧
      ∀ e, answer.error? = some e →
        e.position = next.position ∧
        ((∃ kinds position, e = .endOfInput kinds position) ↔ next.position = tokens.length) ∧
        ∀ token, tokens[next.position]? = some token →
          e = .unexpected e.expected token.text next.position token.line ∧
          token.kind ∉ e.expected := by
  intro cursor
  have hmoves : Cursor.Moves (.start tokens) cursor := Cursor.moves_after _ calls
  obtain ⟨hseek, hle⟩ := hmoves.eq_seek
  refine ⟨hseek, hle, fun more => ?_, fun call => ?_⟩
  · have happend : (Cursor.start tokens).after (calls ++ more) = cursor.after more :=
      List.foldl_append
    rw [happend]
    exact (cursor.moves_after more).position_le
  intro answer next
  have hanswers : cursor.Answers call answer next := cursor.answers_ask call
  obtain ⟨hnext, hnextle⟩ := (hmoves.trans hanswers.moves).eq_seek
  refine ⟨hanswers.eq_of_missed, fun token htoken => ?_, fun rule node hcall htree => ?_,
    fun hcall hend => ?_, fun e he => ?_⟩
  · obtain ⟨hhead, hposition⟩ := hanswers.passes htoken
    rw [hseek, Cursor.head?_rest_seek] at hhead
    exact ⟨hhead, hposition⟩
  · rw [hcall, htree] at hanswers
    obtain hlt | ⟨hrule, hrest, hnode⟩ := hanswers.advances
    · exact .inl hlt
    · rw [hseek, Cursor.rest_seek_eq_nil_iff hle] at hrest
      exact .inr ⟨hrule, hrest, hnode⟩
  · have hrest : cursor.rest = [] := by rwa [hseek, Cursor.rest_seek_eq_nil_iff hle]
    have hask : cursor.ask call = (.tree (.ok (.block [])), cursor) := by
      rw [hcall, Cursor.ask, Cursor.read_code_of_rest_eq_nil hrest]
      rfl
    exact ⟨congrArg Prod.fst hask, congrArg Prod.snd hask⟩
  · obtain ⟨kinds, rfl, hnone⟩ := hanswers.expected_of_error he
    rw [hnext] at hnone
    rw [Cursor.position_expected, Cursor.expected_expected, hnext]
    refine ⟨rfl, ?_, fun token htoken => ⟨Cursor.expected_seek htoken kinds, ?_⟩⟩
    · exact Cursor.expected_seek_eq_endOfInput_iff hnextle kinds
    · exact hnone token (by rwa [Cursor.head?_rest_seek])

end Abacus
