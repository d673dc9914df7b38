import Abacus.Proofs.Program.ReadNames
import Abacus.Proofs.Program.UnknownNames

/-!
# Strict runs

A strict run refuses bindings with a name that is none of the program's, and it names the least of
these, in whatever order the bindings list their names.  All other bindings are run.  As a run that
succeeds has read all names of the program, a strict run succeeds under those bindings only that
have the same names as the program.

## Main definitions

* `Program.leastUnknown?` — the least unknown name, searched for in any listing of the names.
* `Program.runStrictListing` — a strict run that goes by such a listing.

## Main results

* `Program.leastUnknown?_eq`, `Program.runStrictListing_eq` — the listing makes no difference.
* `strict_run_accepts_matching` — **a strict run succeeds under matching bindings only**, and of all
  names that do not match it reports the least.
-/

namespace Abacus

namespace Program

variable {program : Program} {bindings : Bindings} {listing : List String} {name : String}

/-- Of the listed names that the program does not have, the one with the least bytes. -/
def leastUnknown? (program : Program) (listing : List String) : Option String :=
  (listing.filter fun name => !program.references.contains name).minOn? utf8Bytes

/-- A strict run under bindings that list their names in some order. -/
def runStrictListing (program : Program) (listing : List String) (bindings : Bindings) :
    Except EvalError Number :=
  match program.leastUnknown? listing with
  | some name => .error (.unknownBinding name)
  | none => program.run bindings

/-! ### Listings -/

theorem mem_unknown_iff (program : Program) (hlisting : listing.Perm bindings.keys) :
    name ∈ listing.filter (fun name => !program.references.contains name) ↔
      name ∈ bindings ∧ name ∉ program.references := by
  have hmem : name ∈ listing ↔ name ∈ bindings := hlisting.mem_iff.trans Std.TreeMap.mem_keys
  simp [List.mem_filter, hmem]

theorem isLeastUnknown_of_leastUnknown? (hlisting : listing.Perm bindings.keys)
    (h : program.leastUnknown? listing = some name) :
    IsLeastUnknown program.references bindings name := by
  obtain ⟨hname, hunknown⟩ := (mem_unknown_iff program hlisting).mp (List.minOn?_mem h)
  refine ⟨hname, hunknown, ?_⟩
  intro other hother hotherUnknown
  have hmem := (mem_unknown_iff program hlisting).mpr ⟨hother, hotherUnknown⟩
  have hle := List.apply_get_minOn?_le_of_mem (f := utf8Bytes) hmem
  have hget : ((listing.filter fun name => !program.references.contains name).minOn? utf8Bytes).get
      (List.isSome_minOn?_of_mem hmem) = name := Option.get_of_eq_some _ h
  rwa [hget] at hle

theorem leastUnknown?_eq_none_iff (hlisting : listing.Perm bindings.keys) :
    program.leastUnknown? listing = none ↔ ∀ name, name ∈ bindings → name ∈ program.references := by
  rw [leastUnknown?, ← Option.not_isSome_iff_eq_none, List.isSome_minOn?_iff, not_not,
    List.eq_nil_iff_forall_not_mem]
  simp only [mem_unknown_iff program hlisting, not_and, not_not]

/-- **The order in which the names are listed makes no difference.** -/
theorem leastUnknown?_eq (program : Program) (hlisting : listing.Perm bindings.keys) :
    program.leastUnknown? listing = program.unknownName? bindings := by
  cases hfound : program.leastUnknown? listing with
  | none =>
    rw [leastUnknown?_eq_none_iff hlisting, ← unknownName?_eq_none_iff] at hfound
    exact hfound.symm
  | some name =>
    have hleast := isLeastUnknown_of_leastUnknown? hlisting hfound
    cases hother : program.unknownName? bindings with
    | none => exact absurd (unknownName?_eq_none_iff.mp hother name hleast.mem) hleast.not_mem
    | some other => rw [hleast.unique (isLeastUnknown_of_unknownName? hother)]

theorem runStrictListing_eq (program : Program) (hlisting : listing.Perm bindings.keys) :
    program.runStrictListing listing bindings = program.runStrict bindings := by
  rw [runStrictListing, leastUnknown?_eq program hlisting]
  rfl

end Program

/-- **A strict run succeeds under matching bindings only.**  However the bindings list their names,
the least of those that the program does not have is reported, before anything is evaluated; and if
there is none the program is run.  So it succeeds exactly if the bindings have the names of the
program and no others, and the program has a value under them. -/
theorem strict_run_accepts_matching (folding : Bool) (e : Expr) (bindings : Bindings) :
    let program := (Program.ofExpr folding e).1
    (∀ listing : List String, listing.Perm bindings.keys →
      program.runStrictListing listing bindings = program.runStrict bindings) ∧
    ((∃ name, name ∈ bindings ∧ name ∉ program.references) →
      ∃ name, IsLeastUnknown program.references bindings name ∧
        program.runStrict bindings = .error (.unknownBinding name)) ∧
    ((∀ name, name ∈ bindings → name ∈ program.references) →
      program.runStrict bindings = program.run bindings) ∧
    ∀ value, program.runStrict bindings = .ok value ↔
      (∀ name, name ∈ bindings ↔ name ∈ program.references) ∧
        program.run bindings = .ok value := by
  intro program
  refine ⟨fun _ => Program.runStrictListing_eq program, Program.exists_runStrict_eq_error,
    Program.runStrict_eq_run, ?_⟩
  intro value
  constructor
  · intro h
    -- Had a name been unknown, the run would have ended with it.
    have hknown : ∀ name, name ∈ bindings → name ∈ program.references := by
      intro name hname
      by_contra hunknown
      obtain ⟨least, -, herror⟩ := Program.exists_runStrict_eq_error ⟨name, hname, hunknown⟩
      cases herror.symm.trans h
    have hrun : program.run bindings = .ok value := (Program.runStrict_eq_run hknown).symm.trans h
    -- A value needs every name the tree reads, though folding may have dropped some from the code.
    have hvalue : e.evaluate bindings = .ok value := (run_ofExpr folding e bindings).symm.trans hrun
    refine ⟨fun name => ⟨hknown name, fun hname => ?_⟩, hrun⟩
    exact Expr.mem_of_evaluate_eq_ok hvalue name (Expr.mem_references.mp hname)
  · rintro ⟨hnames, hrun⟩
    rw [Program.runStrict_eq_run fun name => (hnames name).mp]
    exact hrun

end Abacus
