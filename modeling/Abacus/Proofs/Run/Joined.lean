import Abacus.Proofs.Grammar.Rewriting
import Abacus.Proofs.Lexeme.Joined
import Abacus.Proofs.Node.Lines

/-!
# Running two texts as one

Two texts that are joined by a line feed are read and run as the first and then
the second. The tokens, the trees and the errors of the second are what they are
on its own, further on by the bytes, lines and tokens of the first.
-/

namespace Abacus

variable {tokens : List Token} {items : List Node}

def SyntaxError.shift (count lines : Nat) : SyntaxError → SyntaxError
  | .unexpected expected found position line =>
    .unexpected expected found (position + count) (line + lines)
  | .endOfInput expected position => .endOfInput expected (position + count)

-- ---------------------------------------------------------------------------
-- Tokens
-- ---------------------------------------------------------------------------

theorem tokenize_joined (first second : String) :
    tokenize (first ++ "\n" ++ second) =
      (tokenize first).bind fun tokens =>
        ((tokenize second).map fun others => tokens ++ others.map
            (Token.shift (first.utf8ByteSize + 1) (first.toList.count '\n' + 1))).mapError
          (LexicalError.shift (first.utf8ByteSize + 1) (first.toList.count '\n' + 1)) := by
  have htext : (first ++ "\n" ++ second).toList = first.toList ++ '\n' :: second.toList := by
    simp
  have hplace : (Place.start.after first).after "\n" =
      Place.start.shift (first.utf8ByteSize + 1) (first.toList.count '\n' + 1) := by
    have hfeed : "\n".utf8ByteSize = 1 := by decide
    simp [Place.after, Place.shift, Place.start, hfeed, Nat.add_assoc]
  rw [tokenize, htext, tokenizeFrom_append_lineFeed, String.ofList_toList, hplace,
    tokenizeFrom_shift]
  unfold tokenize
  cases tokenizeFrom .start first.toList with
  | error e => rfl
  | ok tokens => cases tokenizeFrom .start second.toList <;> rfl

-- ---------------------------------------------------------------------------
-- Trees
-- ---------------------------------------------------------------------------

theorem Cursor.expected_shift (bytes lines count position : Nat) (rest : List Token)
    (kinds : List Kind) :
    (Cursor.mk (rest.map (Token.shift bytes lines)) (count + position)).expected kinds =
      ((Cursor.mk rest position).expected kinds).shift count lines := by
  cases rest with
  | nil => exact congrArg (SyntaxError.endOfInput kinds) (Nat.add_comm count position)
  | cons token rest =>
    exact congrArg (SyntaxError.unexpected kinds token.text · (token.line + lines))
      (Nat.add_comm count position)

theorem parse_joined (h : parse tokens = .ok (.block items))
    (bytes lines : Nat) (others : List Token) :
    parse (tokens ++ others.map (Token.shift bytes lines)) =
      ((parse others).map fun other =>
          .block (items ++ (other.map (Token.shift bytes lines)).statements)).mapError
        (SyntaxError.shift tokens.length lines) := by
  have hfollow := Cursor.follow_behind (parse_eq_ok_iff.mp h)
    (f := Token.shift bytes lines) (fun _ => rfl) others
  simp only [parse, Cursor.read, Cursor.readCode, Cursor.start, hfollow, Progress.result?_behind]
  rcases Cursor.follow Progress.advance? .start 0 others with ⟨progress, ⟨rest, position⟩⟩
  cases hresult : progress.result? with
  | none =>
    simp only [Option.map_none, Cursor.expected_shift, Progress.behind, Phase.expected_map]
    rfl
  | some node =>
    obtain ⟨-, rfl⟩ := Progress.result?_eq_some_iff.mp hresult
    cases rest with
    | nil => rfl
    | cons token rest =>
      simp only [Option.map_some, List.map_cons]
      rw [← List.map_cons, Cursor.expected_shift, Progress.behind, Phase.expected_map]
      rfl

-- ---------------------------------------------------------------------------
-- Runs
-- ---------------------------------------------------------------------------

/-- Two texts joined by a line feed have the tokens and the statements of the
first, then those of the second, shifted; where one of them cannot be read, the
error is its own, shifted if it is the second. If both can be read, they run
like their statements one by one in one session, up to the first error. -/
theorem joined_reads_and_runs_in_turn (first second : String) :
    (∀ e, tokenize first = .error e → tokenize (first ++ "\n" ++ second) = .error e) ∧
    ∀ tokens, tokenize first = .ok tokens →
      let joined := first ++ "\n" ++ second
      let bytes := first.utf8ByteSize + 1
      let lines := first.toList.count '\n' + 1
      (∀ e, tokenize second = .error e → tokenize joined = .error (e.shift bytes lines)) ∧
      ∀ others, tokenize second = .ok others →
        let all := tokens ++ others.map (Token.shift bytes lines)
        tokenize joined = .ok all ∧
        ∀ program, parse tokens = .ok program →
          (∀ e, parse others = .error e →
            parse all = .error (e.shift tokens.length lines)) ∧
          ∀ other, parse others = .ok other →
            let whole := Node.block
              (program.statements ++ (other.map (Token.shift bytes lines)).statements)
            parse all = .ok whole ∧
            ∀ sink,
              let once := (Session.start sink).evalEach program.statements
              let twice := once.2.evalEach other.statements
              (∀ e, once.1.2 = some e →
                (whole.eval.on (.start sink)).2 = once.2 ∧
                (run joined sink).sink = once.2.sink ∧
                (run joined sink).result = .error (.eval e)) ∧
              (once.1.2 = none →
                (whole.eval.on (.start sink)).2 = twice.2 ∧
                (run joined sink).sink = twice.2.sink ∧
                (twice.1.2 = none → (run joined sink).result = .ok twice.2.scope) ∧
                ∀ e, twice.1.2 = some e →
                  (run joined sink).result = .error (.eval (e.mapLine (· + lines)))) := by
  have htokens := tokenize_joined first second
  refine ⟨fun e he => by rw [htokens, he]; rfl, fun tokens ht => ?_⟩
  intro joined bytes lines
  rw [ht] at htokens
  refine ⟨fun e he => by rw [htokens, he]; rfl, fun others ho => ?_⟩
  intro all
  have hall : tokenize joined = .ok all := by
    rw [htokens, ho]
    rfl
  refine ⟨hall, fun program hp => ?_⟩
  obtain ⟨items, rfl⟩ := (parse_eq_ok_iff.mp hp).code_eq_block
  have htree := parse_joined hp bytes lines others
  refine ⟨fun e he => by rw [htree, he]; rfl, fun other hother => ?_⟩
  obtain ⟨more, rfl⟩ := (parse_eq_ok_iff.mp hother).code_eq_block
  intro whole
  have hwhole : parse all = .ok whole := by
    rw [htree, hother]
    rfl
  refine ⟨hwhole, fun sink => ?_⟩
  intro once twice
  obtain ⟨hsink, hok, herror⟩ := run_eq_evalEach hall hwhole sink
  rw [Node.on_eval_block]
  refine ⟨fun e he => ?_, fun hnone => ?_⟩
  · rw [Session.evalEach_append_of_error he] at hsink herror ⊢
    exact ⟨rfl, hsink, herror e he⟩
  · have hshift := (relabelsEach_mapAll (f := Token.shift bytes lines) (g := (· + lines))
      (fun _ => rfl) (fun _ => rfl) more).evalEach once.2
    rw [Session.evalEach_append_of_ok hnone] at hsink hok herror ⊢
    rw [show (Node.map (Token.shift bytes lines) (.block more)).statements =
      Node.mapAll (Token.shift bytes lines) more from rfl, hshift] at hsink hok herror ⊢
    exact ⟨rfl, hsink, fun h => hok (congrArg (Option.map _) h),
      fun e he => herror _ (congrArg (Option.map _) he)⟩

end Abacus
