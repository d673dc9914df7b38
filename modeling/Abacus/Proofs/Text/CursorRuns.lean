import Abacus.Text.Cursor
import Abacus.Proofs.Text.Runs

/-!
# Runs of a cursor

A cursor may be asked to look, to step and to read in any order.  It keeps its offset by adding up
the sizes of the characters that it passes, and it is by such offsets that a text is cut.  Whatever
it was asked, what it passed begins the text, and its offset is the byte at which the rest begins.
So two of its offsets cut the text between characters, and between them is what was passed.

## Main definitions

* `sliceBytes?` — the text between two bytes, if both begin characters.
* `CursorCall`, `CursorAnswer` — what is asked of a cursor and what it answers.
* `Cursor.ask`, `Cursor.run` — one call, and one after the other.
* `Cursor.taken`, `Cursor.consumed` — the characters that are passed by a call and by a run.
* `Cursor.Reads` — from one cursor to another the given characters are passed.

## Main results

* `exists_place`, `sliceBytes?_of_splits` — characters as places in a text.
* `Cursor.Reads.textFrom` — what is read back is what was passed.
* `Cursor.readWhile_offset` — the text of a run is the run.
* `Cursor.reads_ask`, `Cursor.reads_run` — **what is passed is what the place moves by**.
* `cursor_views_text` — **a cursor is a view of its text.**
-/

namespace Abacus

/-! ### Places in a text -/

/-- The text between two bytes, if both are at the beginning of a character or at the end, and the
second is not before the first. -/
def sliceBytes? (text : String) (start stop : Nat) : Option String := do
  let start ← text.pos? ⟨start⟩
  let stop ← text.pos? ⟨stop⟩
  let slice ← text.slice? start stop
  return slice.copy

theorem utf8ByteSize_ofList (cs : List Char) :
    (String.ofList cs).utf8ByteSize = byteLength cs := by
  induction cs with
  | nil => rfl
  | cons c cs ih =>
    have hcons : String.ofList (c :: cs) = String.singleton c ++ String.ofList cs := by
      rw [String.singleton_eq_ofList, ← String.ofList_append]
      rfl
    rw [hcons, String.utf8ByteSize_append, String.utf8ByteSize_singleton, ih, byteLength_cons]

section Places

variable {text : String} {before after run : List Char}

theorem exists_place (h : text.toList = before ++ after) :
    ∃ place : text.Pos, place.Splits (String.ofList before) (String.ofList after) := by
  have htext : text = String.ofList before ++ String.ofList after := by
    rw [← String.ofList_append, ← h, String.ofList_toList]
  exact ⟨String.Pos.ofEqAppend htext, String.Pos.splits_ofEqAppend htext⟩

variable {place start stop : text.Pos}

theorem byteIdx_of_splits (h : place.Splits (String.ofList before) (String.ofList after)) :
    place.offset.byteIdx = byteLength before := by
  rw [h.offset_eq_rawEndPos]
  exact utf8ByteSize_ofList before

/-- The end of a text is where no characters are left. -/
theorem eq_endPos_iff_of_splits (h : place.Splits (String.ofList before) (String.ofList after)) :
    place = text.endPos ↔ after = [] := by
  rw [h.eq_endPos_iff]
  exact String.ofList_eq_empty_iff

theorem eq_endPos_iff_byteIdx (place : text.Pos) :
    place = text.endPos ↔ place.offset.byteIdx = text.utf8ByteSize := by
  rw [String.Pos.ext_iff, String.Pos.Raw.ext_iff]
  rfl

theorem get?_of_splits (h : place.Splits (String.ofList before) (String.ofList after)) :
    place.get? = after.head? := by
  by_cases hend : place = text.endPos
  · rw [(eq_endPos_iff_of_splits h).mp hend, String.Pos.get?_eq_none hend]
    rfl
  · obtain ⟨rest, hrest⟩ := h.exists_eq_singleton_append hend
    have hafter : after = place.get hend :: rest.toList := by
      simpa using congrArg String.toList hrest
    rw [String.Pos.get?_eq_some_get hend, hafter]
    rfl

theorem pos?_byteIdx (place : text.Pos) : text.pos? ⟨place.offset.byteIdx⟩ = some place := by
  have hvalid : place.offset.isValidForSlice text.toSlice = true :=
    String.Pos.Raw.isValidForSlice_eq_true_iff.mpr place.toSlice.isValidForSlice
  show (text.toSlice.pos? place.offset).map String.Pos.ofToSlice = some place
  rw [String.Slice.pos?, dif_pos hvalid]
  rfl

/-- Two places cut out what is behind the one and in front of the other. -/
theorem sliceBytes?_of_splits
    (hstart : start.Splits (String.ofList before) (String.ofList (run ++ after)))
    (hstop : stop.Splits (String.ofList (before ++ run)) (String.ofList after)) :
    sliceBytes? text start.offset.byteIdx stop.offset.byteIdx = some (String.ofList run) := by
  rw [String.ofList_append] at hstart hstop
  obtain ⟨hle, hcopy⟩ := String.copy_slice_eq_iff_splits.mpr ⟨_, _, hstart, hstop⟩
  unfold sliceBytes?
  rw [pos?_byteIdx, pos?_byteIdx]
  simp only [Option.bind_eq_bind, Option.bind_some, String.slice?, dif_pos hle, hcopy]
  rfl

end Places

/-! ### Calls -/

/-- What is asked of a cursor. -/
inductive CursorCall
  | peek
  | advance
  | offset
  | atEnd
  | readWhile (start : Nat) (p : Char → Bool)

/-- What a cursor answers. -/
inductive CursorAnswer
  | shown (next : Option Char)
  | standing (offset : Nat)
  | ended (atEnd : Bool)
  | read (text : String)

namespace Cursor

/-- The answer to a call, and the cursor for the next one. -/
def ask (cursor : Cursor) : CursorCall → CursorAnswer × Cursor
  | .peek => (.shown cursor.peek, cursor)
  | .advance =>
    let (next, after) := cursor.advance
    (.shown next, after)
  | .offset => (.standing cursor.offset, cursor)
  | .atEnd => (.ended cursor.atEnd, cursor)
  | .readWhile start p =>
    let (text, after) := cursor.readWhile start p
    (.read text, after)

/-- The cursor that is left when calls are made one after the other. -/
def run (cursor : Cursor) (calls : List CursorCall) : Cursor :=
  calls.foldl (fun cursor call => (cursor.ask call).2) cursor

/-- The characters that a call passes. -/
def taken (cursor : Cursor) : CursorCall → List Char
  | .advance => cursor.peek.toList
  | .readWhile _ p => cursor.ahead.takeWhile p
  | .peek | .offset | .atEnd => []

/-- The characters that calls pass, made one after the other. -/
def consumed (cursor : Cursor) : List CursorCall → List Char
  | [] => []
  | call :: calls => cursor.taken call ++ (cursor.ask call).2.consumed calls

theorem run_append (cursor : Cursor) (earlier later : List CursorCall) :
    cursor.run (earlier ++ later) = (cursor.run earlier).run later :=
  List.foldl_append

theorem consumed_append (cursor : Cursor) (earlier later : List CursorCall) :
    cursor.consumed (earlier ++ later)
      = cursor.consumed earlier ++ (cursor.run earlier).consumed later := by
  induction earlier generalizing cursor with
  | nil => rfl
  | cons call earlier ih =>
    rw [List.cons_append, consumed, consumed, ih, List.append_assoc]
    rfl

/-- The characters of the last call come last. -/
theorem consumed_concat (cursor : Cursor) (calls : List CursorCall) (call : CursorCall) :
    cursor.consumed (calls ++ [call]) = cursor.consumed calls ++ (cursor.run calls).taken call := by
  rw [consumed_append, consumed, consumed, List.append_nil]

/-! ### What is passed -/

/-- The given characters are passed from one cursor to the other: they are ahead of the one, behind
the other, and the offset has moved by their bytes. -/
structure Reads (cursor : Cursor) (read : List Char) (after : Cursor) : Prop where
  ahead_eq : cursor.ahead = read ++ after.ahead
  behind_eq : after.behind = read.reverse ++ cursor.behind
  offset_eq : after.offset = cursor.offset + byteLength read

section Reads

variable {cursor between after : Cursor} {read more : List Char}

theorem Reads.refl (cursor : Cursor) : cursor.Reads [] cursor := ⟨rfl, rfl, rfl⟩

theorem Reads.trans (h : cursor.Reads read between) (hmore : between.Reads more after) :
    cursor.Reads (read ++ more) after := by
  refine ⟨?_, ?_, ?_⟩
  · rw [h.ahead_eq, hmore.ahead_eq, List.append_assoc]
  · rw [hmore.behind_eq, h.behind_eq, List.reverse_append, List.append_assoc]
  · rw [hmore.offset_eq, h.offset_eq, byteLength_append, Nat.add_assoc]

/-- The whole text stays the same. -/
theorem Reads.source_eq (h : cursor.Reads read after) : after.source = cursor.source := by
  rw [source, source, h.behind_eq, h.ahead_eq, List.reverse_append, List.reverse_reverse,
    List.append_assoc]

theorem reads_step (cursor : Cursor) : cursor.Reads cursor.peek.toList cursor.step := by
  obtain ⟨behind, ahead, offset⟩ := cursor
  cases ahead with
  | nil => exact .refl _
  | cons c cs => exact ⟨rfl, rfl, rfl⟩

example : (ofString "é1").step.offset = 2 ∧ (ofString "é1").step.peek = some '1' := by decide

theorem step_of_peek_eq_none (h : cursor.peek = none) : cursor.step = cursor := by
  have hahead : cursor.ahead = [] := List.head?_eq_none_iff.mp h
  rw [step, hahead]

theorem reads_skipWhile (p : Char → Bool) (cursor : Cursor) :
    cursor.Reads (cursor.ahead.takeWhile p) (cursor.skipWhile p) :=
  ⟨List.takeWhile_append_dropWhile.symm, rfl, rfl⟩

/-- **A call moves the cursor by what it passes.** -/
theorem reads_ask (cursor : Cursor) (call : CursorCall) :
    cursor.Reads (cursor.taken call) (cursor.ask call).2 := by
  cases call with
  | peek => exact .refl cursor
  | advance => exact cursor.reads_step
  | offset => exact .refl cursor
  | atEnd => exact .refl cursor
  | readWhile start p => exact cursor.reads_skipWhile p

/-- **A run moves the cursor by what it passes.** -/
theorem reads_run (cursor : Cursor) (calls : List CursorCall) :
    cursor.Reads (cursor.consumed calls) (cursor.run calls) := by
  induction calls generalizing cursor with
  | nil => exact .refl cursor
  | cons call calls ih => exact (cursor.reads_ask call).trans (ih _)

/-! ### What is read back -/

theorem byteLength_reverse (cs : List Char) : byteLength cs.reverse = byteLength cs := by
  induction cs with
  | nil => rfl
  | cons c cs ih => simp [ih, Nat.add_comm]

theorem lastBytes_zero (behind later : List Char) : lastBytes 0 behind later = later := by
  cases behind <;> rfl

/-- The bytes of the characters nearest behind are these characters. -/
theorem lastBytes_append (run behind : List Char) :
    ∀ later, lastBytes (byteLength run) (run ++ behind) later = run.reverse ++ later := by
  induction run with
  | nil => exact lastBytes_zero behind
  | cons c run ih =>
    intro later
    have hpos := Char.utf8Size_pos c
    rw [byteLength_cons, List.cons_append, lastBytes, if_neg (by omega), Nat.add_sub_cancel_left,
      ih, List.reverse_cons, List.append_assoc]
    rfl

/-- What is read back from an earlier place is what was passed from there on. -/
theorem Reads.textFrom (h : cursor.Reads read after) :
    after.textFrom cursor.offset = String.ofList read := by
  have hbytes := lastBytes_append read.reverse cursor.behind []
  rw [byteLength_reverse, List.reverse_reverse, List.append_nil] at hbytes
  rw [Cursor.textFrom, h.offset_eq, h.behind_eq, Nat.add_sub_cancel_left, hbytes]

/-- What is read back of a run that begins here is the run. -/
theorem readWhile_offset (p : Char → Bool) (cursor : Cursor) :
    cursor.readWhile cursor.offset p
      = (String.ofList (cursor.ahead.takeWhile p), cursor.skipWhile p) :=
  Prod.ext (cursor.reads_skipWhile p).textFrom rfl

end Reads

/-! ### Where a cursor stands -/

/-- The cursor stands at a place of a text, behind the given characters. -/
structure StandsAt {text : String} (cursor : Cursor) (passed : List Char) (place : text.Pos) :
    Prop where
  splits : place.Splits (String.ofList passed) (String.ofList cursor.ahead)
  offset_eq : cursor.offset = place.offset.byteIdx

section StandsAt

variable {text : String} {cursor after : Cursor} {passed read : List Char} {place : text.Pos}

/-- A cursor that has come from the start of a text stands at a place of it. -/
theorem Reads.exists_standsAt (h : (ofString text).Reads passed cursor) :
    ∃ place : text.Pos, cursor.StandsAt passed place := by
  obtain ⟨place, hplace⟩ := exists_place h.ahead_eq
  refine ⟨place, hplace, ?_⟩
  rw [byteIdx_of_splits hplace, h.offset_eq]
  exact Nat.zero_add _

theorem StandsAt.peek_eq (h : cursor.StandsAt passed place) : cursor.peek = place.get? :=
  (get?_of_splits h.splits).symm

theorem StandsAt.atEnd_eq (h : cursor.StandsAt passed place) :
    cursor.atEnd = decide (place.offset.byteIdx = text.utf8ByteSize) := by
  have hend : cursor.ahead = [] ↔ place.offset.byteIdx = text.utf8ByteSize :=
    (eq_endPos_iff_of_splits h.splits).symm.trans (eq_endPos_iff_byteIdx place)
  rw [atEnd, Bool.eq_iff_iff, List.isEmpty_iff, decide_eq_true_iff]
  exact hend

/-- **The offsets of two cursors cut the text around what was passed between them.** -/
theorem Reads.sliceBytes?_eq (hpassed : (ofString text).Reads passed cursor)
    (h : cursor.Reads read after) :
    sliceBytes? text cursor.offset after.offset = some (String.ofList read) := by
  obtain ⟨start, hstart⟩ := hpassed.exists_standsAt
  obtain ⟨stop, hstop⟩ := (hpassed.trans h).exists_standsAt
  rw [hstart.offset_eq, hstop.offset_eq]
  refine sliceBytes?_of_splits ?_ hstop.splits
  rw [← h.ahead_eq]
  exact hstart.splits

end StandsAt

end Cursor

/-! ### The view of a text -/

open Cursor in
/-- **A cursor is a view of its text.**  Let any calls be made from the start of a text, and let the
offset at one point on the way be remembered.  What was passed begins the text, and the offset is
the byte at which it ends, which is a place between two characters or the end.  The character at this
place is shown, and none at the end; to advance passes it.  To read passes the longest run of
characters, and what is read is the text from the remembered offset to the new one, by which the
text can be cut. -/
theorem cursor_views_text (text : String) (earlier later : List CursorCall) (p : Char → Bool) :
    let first := ofString text
    let calls := earlier ++ later
    let cursor := first.run calls
    let passed := first.consumed calls
    let seen := (first.run earlier).offset
    ∃ place : text.Pos,
      place.Splits (String.ofList passed) (String.ofList cursor.ahead) ∧
      cursor.ask .offset = (.standing place.offset.byteIdx, cursor) ∧
      place.offset.byteIdx = (String.ofList passed).utf8ByteSize ∧
      place.offset.byteIdx ≤ text.utf8ByteSize ∧
      cursor.ask .peek = (.shown place.get?, cursor) ∧
      cursor.ask .atEnd = (.ended (decide (place.offset.byteIdx = text.utf8ByteSize)), cursor) ∧
      (place.get? = none ↔ place.offset.byteIdx = text.utf8ByteSize) ∧
      (∃ after, cursor.ask .advance = (.shown place.get?, after) ∧
        first.consumed (calls ++ [.advance]) = passed ++ place.get?.toList ∧
        (place.get? = none → after = cursor)) ∧
      ∃ after run slice, cursor.ask (.readWhile seen p) = (.read slice, after) ∧
        cursor.ahead = run ++ after.ahead ∧ (∀ c ∈ run, p c = true) ∧ StopsRun p after.ahead ∧
        first.consumed (calls ++ [.readWhile seen p]) = passed ++ run ∧
        sliceBytes? text seen after.offset = some slice := by
  intro first calls cursor passed seen
  have hpassed : first.Reads passed cursor := first.reads_run calls
  obtain ⟨place, hplace⟩ := hpassed.exists_standsAt
  refine ⟨place, hplace.splits, ?_, ?_, ?_, ?_, ?_, ?_, ?_, ?_⟩
  · show (CursorAnswer.standing cursor.offset, cursor) = _
    rw [hplace.offset_eq]
  · rw [byteIdx_of_splits hplace.splits, utf8ByteSize_ofList]
  · exact place.isValid.le_rawEndPos
  · show (CursorAnswer.shown cursor.peek, cursor) = _
    rw [hplace.peek_eq]
  · show (CursorAnswer.ended cursor.atEnd, cursor) = _
    rw [hplace.atEnd_eq]
  · rw [String.Pos.get?_eq_none_iff]
    exact eq_endPos_iff_byteIdx place
  · refine ⟨cursor.step, ?_, ?_, ?_⟩
    · show (CursorAnswer.shown cursor.peek, cursor.step) = _
      rw [hplace.peek_eq]
    · rw [consumed_concat, ← hplace.peek_eq]
      rfl
    · intro hnone
      rw [← hplace.peek_eq] at hnone
      exact step_of_peek_eq_none hnone
  · -- From the remembered offset on, the later calls were made, and then the run was passed.
    have hbefore := first.reads_run earlier
    have hread := ((first.run earlier).reads_run later).trans
      (((first.run earlier).run later).reads_skipWhile p)
    rw [← run_append] at hread
    refine ⟨cursor.skipWhile p, cursor.ahead.takeWhile p, (cursor.skipWhile p).textFrom seen, rfl,
      (cursor.reads_skipWhile p).ahead_eq, forall_mem_takeWhile p _, stopsRun_dropWhile p _,
      consumed_concat _ _ _, ?_⟩
    rw [hread.textFrom]
    exact hbefore.sliceBytes?_eq hread

end Abacus
