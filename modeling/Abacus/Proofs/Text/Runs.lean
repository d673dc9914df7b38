/-!
# Runs of characters

A run of characters that satisfy a condition is as long as it can be: it ends with the text or
before a character that does not satisfy it.

## Main definitions

* `StopsRun` — what is ahead does not prolong a run.

## Main results

* `takeWhile_append_of_stopsRun`, `dropWhile_append_of_stopsRun` — a run in front of what stops it.
* `forall_mem_takeWhile`, `stopsRun_dropWhile` — the longest run, and what is behind it.
* `exists_run` — characters can be divided into a run and what stops it.
-/

namespace Abacus

/-- The characters do not begin with one that satisfies `p`. -/
def StopsRun (p : Char → Bool) (cs : List Char) : Prop := ∀ c ∈ cs.head?, p c = false

section Runs

variable {p : Char → Bool} {run rest : List Char}

theorem stopsRun_nil (p : Char → Bool) : StopsRun p [] := fun _ h => nomatch h

theorem stopsRun_cons {c : Char} (h : p c = false) : StopsRun p (c :: rest) := by
  intro d hd
  obtain rfl : c = d := Option.some.inj hd
  exact h

/-- What stops a run stops it also if the text is cut off farther behind. -/
theorem StopsRun.of_append {more : List Char} (h : StopsRun p (rest ++ more)) :
    StopsRun p rest := by
  cases rest with
  | nil => exact stopsRun_nil p
  | cons c rest => exact stopsRun_cons (h c rfl)

theorem takeWhile_append_of_stopsRun (hrun : ∀ c ∈ run, p c = true) (hrest : StopsRun p rest) :
    (run ++ rest).takeWhile p = run := by
  rw [List.takeWhile_append_of_pos hrun]
  cases rest with
  | nil => simp
  | cons c rest => simp [hrest c rfl]

theorem dropWhile_append_of_stopsRun (hrun : ∀ c ∈ run, p c = true) (hrest : StopsRun p rest) :
    (run ++ rest).dropWhile p = rest := by
  rw [List.dropWhile_append_of_pos hrun]
  cases rest with
  | nil => rfl
  | cons c rest => simp [hrest c rfl]

theorem forall_mem_takeWhile (p : Char → Bool) (cs : List Char) :
    ∀ c ∈ cs.takeWhile p, p c = true :=
  List.all_eq_true.mp List.all_takeWhile

theorem stopsRun_dropWhile (p : Char → Bool) (cs : List Char) : StopsRun p (cs.dropWhile p) := by
  intro c hc
  have hnot := List.head?_dropWhile_not p cs
  rw [Option.mem_def.mp hc] at hnot
  exact hnot

/-- Characters begin with a run, which may be empty. -/
theorem exists_run (p : Char → Bool) (cs : List Char) :
    ∃ run rest, cs = run ++ rest ∧ (∀ c ∈ run, p c = true) ∧ StopsRun p rest :=
  ⟨cs.takeWhile p, cs.dropWhile p, List.takeWhile_append_dropWhile.symm,
    forall_mem_takeWhile p cs, stopsRun_dropWhile p cs⟩

end Runs

end Abacus
