import Abacus.Sink

/-!
# Lines on a limited sink

A sink takes lines one after the other up to the first for which it lacks room
or a flush. The lines before that one are written and flushed. Of the text up to
the end of that one, what there is room for is written, and it is not flushed.

`Sink.deliver_of_fits` and `Sink.deliver_of_not_fits` say so of any list of lines.
-/

namespace Abacus.Sink

variable {sink : Sink} {text : List Char} {lines others : List (List Char)}

def unbounded (sink : Sink) : Sink := { sink with room := none, flushesLeft := none }

def NeverFails (sink : Sink) : Prop := sink.room = none ∧ sink.flushesLeft = none

def HasRoom (sink : Sink) (n : Nat) : Prop := ∀ room ∈ sink.room, n ≤ room

def CanFlush (sink : Sink) (n : Nat) : Prop := ∀ left ∈ sink.flushesLeft, n ≤ left

instance (sink : Sink) (n : Nat) : Decidable (sink.HasRoom n) :=
  inferInstanceAs (Decidable (∀ room ∈ sink.room, n ≤ room))

instance (sink : Sink) (n : Nat) : Decidable (sink.CanFlush n) :=
  inferInstanceAs (Decidable (∀ left ∈ sink.flushesLeft, n ≤ left))

/-- There is room for all of these lines, and a flush for each. -/
def Fits (sink : Sink) (lines : List (List Char)) : Prop :=
  sink.HasRoom lines.flatten.length ∧ sink.CanFlush lines.length

def kept (sink : Sink) (text : List Char) : List Char := text.take (sink.room.getD text.length)

/-- The sink after a write, whether all of the text was kept or not. -/
def wrote (sink : Sink) (text : List Char) : Sink :=
  { sink with
    written := sink.written ++ String.ofList (sink.kept text)
    room := sink.room.map (· - text.length) }

def took (sink : Sink) (lines : List (List Char)) : Sink :=
  { sink with
    written := sink.written ++ String.ofList lines.flatten
    flushes := sink.flushes + lines.length
    room := sink.room.map (· - lines.flatten.length)
    flushesLeft := sink.flushesLeft.map (· - lines.length) }

-- ---------------------------------------------------------------------------
-- Room and flushes
-- ---------------------------------------------------------------------------

theorem kept_of_hasRoom (h : sink.HasRoom text.length) : sink.kept text = text := by
  unfold kept
  cases hr : sink.room with
  | none => simp
  | some room => exact List.take_of_length_le (h room hr)

theorem fits_nil (sink : Sink) : sink.Fits [] :=
  ⟨fun _ _ => Nat.zero_le _, fun _ _ => Nat.zero_le _⟩

theorem fits_unbounded (sink : Sink) (lines : List (List Char)) : sink.unbounded.Fits lines :=
  ⟨nofun, nofun⟩

theorem NeverFails.fits (h : sink.NeverFails) (lines : List (List Char)) : sink.Fits lines := by
  simp [Fits, HasRoom, CanFlush, h.1, h.2]

theorem NeverFails.took (h : sink.NeverFails) (lines : List (List Char)) :
    (sink.took lines).NeverFails := by
  simp [NeverFails, Sink.took, h.1, h.2]

theorem took_nil (sink : Sink) : sink.took [] = sink := by
  obtain ⟨written, flushes, room, flushesLeft, writeFault, flushFault⟩ := sink
  cases room <;> cases flushesLeft <;> simp [took]

theorem took_append (sink : Sink) (lines others : List (List Char)) :
    sink.took (lines ++ others) = (sink.took lines).took others := by
  simp [took, String.append_assoc, Nat.add_assoc, Nat.sub_sub, Function.comp_def]

theorem hasRoom_append_iff {n : Nat} (h : sink.HasRoom lines.flatten.length) :
    sink.HasRoom (lines.flatten.length + n) ↔ (sink.took lines).HasRoom n := by
  cases hr : sink.room with
  | none => simp [HasRoom, took, hr]
  | some room =>
    have hle : lines.flatten.length ≤ room := h room hr
    simp only [HasRoom, took, hr, Option.map_some, Option.mem_def, Option.some.injEq, forall_eq']
    omega

theorem canFlush_append_iff {n : Nat} (h : sink.CanFlush lines.length) :
    sink.CanFlush (lines.length + n) ↔ (sink.took lines).CanFlush n := by
  cases hf : sink.flushesLeft with
  | none => simp [CanFlush, took, hf]
  | some left =>
    have hle : lines.length ≤ left := h left hf
    simp only [CanFlush, took, hf, Option.map_some, Option.mem_def, Option.some.injEq, forall_eq']
    omega

theorem Fits.of_append (h : sink.Fits (lines ++ others)) : sink.Fits lines := by
  obtain ⟨hr, hf⟩ := h
  rw [List.flatten_append, List.length_append] at hr
  rw [List.length_append] at hf
  exact ⟨fun room hm => Nat.le_trans (Nat.le_add_right _ _) (hr room hm),
    fun left hm => Nat.le_trans (Nat.le_add_right _ _) (hf left hm)⟩

theorem fits_append_iff (h : sink.Fits lines) :
    sink.Fits (lines ++ others) ↔ (sink.took lines).Fits others := by
  unfold Fits
  rw [List.flatten_append, List.length_append, List.length_append, hasRoom_append_iff h.1,
    canFlush_append_iff h.2]

theorem kept_append (h : sink.Fits lines) (text : List Char) :
    sink.kept (lines.flatten ++ text) = lines.flatten ++ (sink.took lines).kept text := by
  cases hr : sink.room with
  | none => simp [kept, took, hr, List.take_of_length_le]
  | some room =>
    have hle : lines.flatten.length ≤ room := h.1 room hr
    simp [kept, took, hr, List.take_append, List.take_of_length_le hle]

-- ---------------------------------------------------------------------------
-- One line
-- ---------------------------------------------------------------------------

theorem put_eq (sink : Sink) (text : List Char) :
    sink.put text =
      (if sink.HasRoom text.length then .ok () else .error sink.writeFault, sink.wrote text) := by
  cases h : sink.room with
  | none => simp [put, wrote, kept, HasRoom, h]
  | some room =>
    by_cases hl : text.length ≤ room <;> simp [put, wrote, kept, HasRoom, h, hl]

theorem flush_of_canFlush (h : sink.CanFlush 1) :
    sink.flush = (.ok (), { sink with
      flushes := sink.flushes + 1
      flushesLeft := sink.flushesLeft.map (· - 1) }) := by
  rcases hf : sink.flushesLeft with _ | _ | left
  · simp [flush, hf]
  · exact absurd (h 0 hf) (by decide)
  · simp [flush, hf]

theorem flush_of_not_canFlush (h : ¬ sink.CanFlush 1) :
    sink.flush = (.error sink.flushFault, sink) := by
  rcases hf : sink.flushesLeft with _ | _ | left
  · simp [CanFlush, hf] at h
  · simp [flush, hf]
  · simp [CanFlush, hf] at h

theorem putLine_of_fits (h : sink.Fits [text ++ ['\n']]) :
    sink.putLine text = (.ok (), sink.took [text ++ ['\n']]) := by
  obtain ⟨hr, hf⟩ := h
  rw [List.flatten_singleton] at hr
  have hf : (sink.wrote (text ++ ['\n'])).CanFlush 1 := hf
  simp only [putLine, put_eq, if_pos hr, flush_of_canFlush hf]
  simp only [wrote, took, kept_of_hasRoom hr, List.flatten_singleton, List.length_singleton]

/-- The lack of room shows before the lack of a flush. -/
theorem putLine_of_not_fits (h : ¬ sink.Fits [text ++ ['\n']]) :
    sink.putLine text =
      (.error (if sink.HasRoom (text ++ ['\n']).length then sink.flushFault else sink.writeFault),
        sink.wrote (text ++ ['\n'])) := by
  by_cases hr : sink.HasRoom (text ++ ['\n']).length
  · have hf : ¬ (sink.wrote (text ++ ['\n'])).CanFlush 1 := by
      intro hf
      exact h ⟨by rwa [List.flatten_singleton], hf⟩
    simp only [putLine, put_eq, if_pos hr, flush_of_not_canFlush hf]
    rfl
  · simp only [putLine, put_eq, if_neg hr]

-- ---------------------------------------------------------------------------
-- Lines one after the other
-- ---------------------------------------------------------------------------

variable {α : Type} {textOf : α → List Char} {a : α} {items before : List α}

/-- Writes a line for each item. Stops with the first whose line is refused. -/
def deliver (textOf : α → List Char) (sink : Sink) : List α → Option (α × Fault) × Sink
  | [] => (none, sink)
  | a :: items =>
    match sink.putLine (textOf a) with
    | (.ok (), sink) => deliver textOf sink items
    | (.error fault, sink) => (some (a, fault), sink)

def linesOf (textOf : α → List Char) (items : List α) : List (List Char) :=
  items.map fun a => textOf a ++ ['\n']

theorem deliver_append_of_fits (h : sink.Fits (linesOf textOf before)) (items : List α) :
    sink.deliver textOf (before ++ items) =
      (sink.took (linesOf textOf before)).deliver textOf items := by
  induction before generalizing sink with
  | nil => rw [List.nil_append, linesOf, List.map_nil, took_nil]
  | cons a before ih =>
    have hcons : sink.Fits ([textOf a ++ ['\n']] ++ linesOf textOf before) := h
    have hline := hcons.of_append
    have hrest := (fits_append_iff hline).mp hcons
    simp only [List.cons_append, deliver, putLine_of_fits hline, ih hrest, ← took_append]
    rfl

theorem deliver_of_fits (h : sink.Fits (linesOf textOf items)) :
    sink.deliver textOf items = (none, sink.took (linesOf textOf items)) := by
  have happend := deliver_append_of_fits h []
  rwa [List.append_nil] at happend

theorem deliver_append_of_refused {refused : α × Fault} {last : Sink}
    (h : sink.deliver textOf before = (some refused, last)) (items : List α) :
    sink.deliver textOf (before ++ items) = (some refused, last) := by
  induction before generalizing sink with
  | nil => cases h
  | cons a before ih =>
    simp only [List.cons_append, deliver] at h ⊢
    split at h
    next => exact ih h
    next => exact h

theorem exists_first_not_fits (h : ¬ sink.Fits (linesOf textOf items)) :
    ∃ before a after, items = before ++ a :: after ∧ sink.Fits (linesOf textOf before) ∧
      ¬ sink.Fits (linesOf textOf (before ++ [a])) := by
  induction items generalizing sink with
  | nil => exact absurd (fits_nil sink) h
  | cons b items ih =>
    by_cases hline : sink.Fits [textOf b ++ ['\n']]
    · have hcons (others : List α) :
          sink.Fits ([textOf b ++ ['\n']] ++ linesOf textOf others) ↔
            (sink.took [textOf b ++ ['\n']]).Fits (linesOf textOf others) :=
        fits_append_iff hline
      obtain ⟨before, a, after, rfl, hbefore, hnot⟩ := ih fun hitems => h ((hcons items).mpr hitems)
      exact ⟨b :: before, a, after, rfl, (hcons before).mpr hbefore,
        fun hfits => hnot ((hcons _).mp hfits)⟩
    · exact ⟨[], b, items, rfl, fits_nil sink, hline⟩

theorem deliver_of_not_fits (hb : sink.Fits (linesOf textOf before))
    (hn : ¬ sink.Fits (linesOf textOf (before ++ [a]))) (after : List α) :
    let text := (linesOf textOf (before ++ [a])).flatten
    ∃ last, sink.deliver textOf (before ++ a :: after) =
        (some (a, if sink.HasRoom text.length then sink.flushFault else sink.writeFault), last) ∧
      last.written = sink.written ++ String.ofList (sink.kept text) ∧
      last.flushes = sink.flushes + before.length := by
  intro text
  have htext : text = (linesOf textOf before).flatten ++ (textOf a ++ ['\n']) := by
    simp [text, linesOf]
  have hline : ¬ (sink.took (linesOf textOf before)).Fits [textOf a ++ ['\n']] := by
    rw [← fits_append_iff hb]
    simpa [linesOf] using hn
  refine ⟨(sink.took (linesOf textOf before)).wrote (textOf a ++ ['\n']), ?_, ?_, ?_⟩
  · rw [deliver_append_of_fits hb, htext, List.length_append]
    simp only [deliver, putLine_of_not_fits hline, hasRoom_append_iff hb.1]
    rfl
  · rw [htext, kept_append hb]
    simp [wrote, took, String.append_assoc]
  · simp [wrote, took, linesOf]

end Abacus.Sink
