import Abacus.Program
import Abacus.Proofs.Text.ByteOrder

/-!
# Names that a program does not have

A strict run complains of a name that has a value and is none of the program's.  Bindings are in the
order of their names, so the first such name is the least one; and this order is that of the bytes.

## Main definitions

* `IsLeastUnknown` — a name that has a value without being among the given names, with the least
  bytes of all these.

## Main results

* `IsLeastUnknown.unique` — there is but one.
* `Program.isLeastUnknown_of_unknownName?`, `Program.unknownName?_eq_none_iff` — **the name found is
  the least unknown one**, and none is found only if there is none.
* `Program.exists_runStrict_eq_error`, `Program.runStrict_eq_run` — what a strict run gives.
-/

namespace Abacus

/-- The name has a value and is none of `names`, and no such name has lesser bytes. -/
structure IsLeastUnknown (names : List String) (bindings : Bindings) (name : String) : Prop where
  mem : name ∈ bindings
  not_mem : name ∉ names
  le : ∀ other, other ∈ bindings → other ∉ names → utf8Bytes name ≤ utf8Bytes other

theorem eq_of_utf8Bytes_eq {s t : String} (h : utf8Bytes s = utf8Bytes t) : s = t := by
  have hdata : s.toByteArray.data = t.toByteArray.data := Array.toList_inj.mp h
  exact String.toByteArray_inj.mp (ByteArray.ext hdata)

theorem IsLeastUnknown.unique {names : List String} {bindings : Bindings} {name name' : String}
    (h : IsLeastUnknown names bindings name) (h' : IsLeastUnknown names bindings name') :
    name = name' := by
  have hle := h.le name' h'.mem h'.not_mem
  have hge := h'.le name h.mem h.not_mem
  exact eq_of_utf8Bytes_eq (List.le_antisymm hle hge)

theorem Bindings.pairwise_keys (bindings : Bindings) :
    bindings.keys.Pairwise fun name other => utf8Bytes name ≤ utf8Bytes other := by
  have hkeys : bindings.keys.Pairwise fun name other => compare name other = .lt :=
    Std.TreeMap.ordered_keys
  refine hkeys.imp fun {name other} h => ?_
  have hlt : name < other := compareOfLessAndEq_eq_lt.mp h
  exact utf8Bytes_le_of_le (Std.le_of_lt hlt)

namespace Program

variable {program : Program} {bindings : Bindings}

theorem isLeastUnknown_of_unknownName? {name : String}
    (h : program.unknownName? bindings = some name) :
    IsLeastUnknown program.references bindings name := by
  obtain ⟨hname, before, after, hkeys, hbefore⟩ := List.find?_eq_some_iff_append.mp h
  have hmem : ∀ other, other ∈ bindings ↔ other ∈ before ++ name :: after := fun other => by
    rw [← hkeys]
    exact Std.TreeMap.mem_keys.symm
  refine ⟨(hmem name).mpr (by simp), by simpa using hname, ?_⟩
  intro other hother hunknown
  have hpairwise := bindings.pairwise_keys
  rw [hkeys, List.pairwise_append] at hpairwise
  rcases List.mem_append.mp ((hmem other).mp hother) with hmem' | hmem'
  · -- The names in front of the one found are all known.
    have hknown := hbefore other hmem'
    simp [hunknown] at hknown
  · rcases List.mem_cons.mp hmem' with rfl | hmem'
    · exact List.le_refl _
    · exact List.rel_of_pairwise_cons hpairwise.2.1 hmem'

theorem unknownName?_eq_none_iff :
    program.unknownName? bindings = none ↔ ∀ name, name ∈ bindings → name ∈ program.references := by
  unfold unknownName?
  simp [List.find?_eq_none, Std.TreeMap.mem_keys]

/-- A strict run reports the least unknown name, whatever a run would give. -/
theorem exists_runStrict_eq_error (h : ∃ name, name ∈ bindings ∧ name ∉ program.references) :
    ∃ name, IsLeastUnknown program.references bindings name ∧
      program.runStrict bindings = .error (.unknownBinding name) := by
  cases hunknown : program.unknownName? bindings with
  | none =>
    obtain ⟨name, hname, hnot⟩ := h
    exact absurd (unknownName?_eq_none_iff.mp hunknown name hname) hnot
  | some name =>
    refine ⟨name, isLeastUnknown_of_unknownName? hunknown, ?_⟩
    simp only [runStrict, hunknown]

/-- Where all names are known a strict run is a run. -/
theorem runStrict_eq_run (h : ∀ name, name ∈ bindings → name ∈ program.references) :
    program.runStrict bindings = program.run bindings := by
  simp only [runStrict, unknownName?_eq_none_iff.mpr h]

end Program

end Abacus
