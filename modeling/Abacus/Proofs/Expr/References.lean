import Abacus.Proofs.Distinct
import Abacus.Proofs.Expr.Buffering
import Abacus.Proofs.Expr.Parts
import Std.Data.HashSet.Lemmas

/-!
# The references of an expression

The references are the names at the leaves, each of them once, in the order in which they first
occur from left to right.  A walk over the expression finds them that remembers the names it has
seen.  Reading an expression neither loses a name nor adds one, and keeps their order, so the
references of what a text is read as can be told from the tokens of the text alone.

## Main definitions

* `OccursBefore` — an element of a list occurs before all occurrences of another one.
* `ListsFirst` — names that are listed once each, in the order of their first occurrences.
* `NameFinder`, `Expr.findNames` — the walk.

## Main results

* `ListsFirst.unique` — there is one such list of names.
* `NameFinder.HasFound.findNames` — **what the walk has seen and found** after any expression.
* `names_eq_of_derives` — a derivation keeps the names and their order.
* `references_exact` — **the list of references is exact.**
-/

namespace Abacus

/-! ### First occurrences -/

section FirstOccurrences

variable {α : Type}

/-- In the list there is an `a`, and no `b` up to it. -/
def OccursBefore (list : List α) (a b : α) : Prop :=
  ∃ before after, list = before ++ a :: after ∧ b ∉ before ++ [a]

/-- The names are those whose items are in the list, without repetitions, and in the order in which
the items first occur. -/
structure ListsFirst (item : String → α) (list : List α) (names : List String) : Prop where
  nodup : names.Nodup
  mem_iff : ∀ name, name ∈ names ↔ item name ∈ list
  ordered : names.Pairwise fun name other => OccursBefore list (item name) (item other)

variable {list : List α} {a b : α}

theorem OccursBefore.append (h : OccursBefore list a b) (more : List α) :
    OccursBefore (list ++ more) a b := by
  obtain ⟨before, after, rfl, hb⟩ := h
  exact ⟨before, after ++ more, by simp, hb⟩

/-- An element that does not occur yet will come behind all others. -/
theorem OccursBefore.of_mem (ha : a ∈ list) (hb : b ∉ list) (more : List α) :
    OccursBefore (list ++ more) a b := by
  obtain ⟨before, after, rfl⟩ := List.append_of_mem ha
  refine ⟨before, after ++ more, by simp, fun hmem => hb ?_⟩
  rw [List.append_cons]
  exact List.mem_append_left _ hmem

theorem OccursBefore.asymm (h : OccursBefore list a b) : ¬ OccursBefore list b a := by
  rintro ⟨before', after', htwo, ha⟩
  obtain ⟨before, after, hone, hb⟩ := h
  -- Of the two beginnings of the list, one is a beginning of the other.
  have hprefix : before ++ [a] <+: list := ⟨after, by simp [hone]⟩
  have hprefix' : before' ++ [b] <+: list := ⟨after', by simp [htwo]⟩
  rcases List.prefix_or_prefix_of_prefix hprefix hprefix' with hle | hle
  · exact ha (hle.subset (by simp))
  · exact hb (hle.subset (by simp))

/-- **There is one list of names with their first occurrences.** -/
theorem ListsFirst.unique {item : String → α} {names names' : List String}
    (h : ListsFirst item list names) (h' : ListsFirst item list names') : names = names' := by
  have hmem : ∀ name, name ∈ names ↔ name ∈ names' :=
    fun name => (h.mem_iff name).trans (h'.mem_iff name).symm
  have hperm := (List.perm_ext_iff_of_nodup h.nodup h'.nodup).mpr hmem
  exact hperm.eq_of_pairwise (fun _ _ _ _ hle hge => absurd hge hle.asymm) h.ordered h'.ordered

theorem eraseDups_append_singleton (names : List String) (name : String) :
    (names ++ [name]).eraseDups
      = if name ∈ names then names.eraseDups else names.eraseDups ++ [name] := by
  rw [List.eraseDups_append]
  by_cases hmem : name ∈ names
  · simp [List.removeAll, hmem]
  · simp [List.removeAll, hmem, List.eraseDups_cons]

/-- Erasing repetitions leaves the first occurrences in their order. -/
theorem pairwise_eraseDups (names : List String) :
    names.eraseDups.Pairwise (OccursBefore names) := by
  -- A name is added behind those it follows, so the induction takes the last one off.
  induction names using List.reverseRecOn with
  | nil => exact List.Pairwise.nil
  | append_singleton names name ih =>
    have hbefore := ih.imp fun h => h.append [name]
    rw [eraseDups_append_singleton]
    split
    · exact hbefore
    · next hnew =>
      refine List.pairwise_append.mpr ⟨hbefore, List.pairwise_singleton _ _, ?_⟩
      intro other hother last hlast
      rw [List.mem_singleton.mp hlast]
      exact .of_mem (List.mem_eraseDups.mp hother) hnew [name]

variable {item : String → α} {name? : α → Option String}

theorem mem_filterMap_iff (hitem : ∀ a name, name? a = some name ↔ a = item name) {name : String} :
    name ∈ list.filterMap name? ↔ item name ∈ list := by
  simp [List.mem_filterMap, hitem]

/-- What occurs first among the names of a list occurs first in the list. -/
theorem OccursBefore.of_filterMap (hitem : ∀ a name, name? a = some name ↔ a = item name)
    {name other : String} (h : OccursBefore (list.filterMap name?) name other) :
    OccursBefore list (item name) (item other) := by
  obtain ⟨before, after, hnames, hother⟩ := h
  obtain ⟨front, back, rfl, rfl, hback⟩ := List.filterMap_eq_append_iff.mp hnames
  obtain ⟨skipped, a, back, rfl, hskipped, ha, -⟩ := List.filterMap_eq_cons_iff.mp hback
  obtain rfl := (hitem a name).mp ha
  have hnone : skipped.filterMap name? = [] := List.filterMap_eq_nil_iff.mpr hskipped
  refine ⟨front ++ skipped, back, by simp, fun hmem => hother ?_⟩
  have hmem' := (mem_filterMap_iff hitem).mpr hmem
  simpa [hnone, ha] using hmem'

/-- The names of the items in a list, with repetitions erased, are listed as they first occur. -/
theorem listsFirst_eraseDups (hitem : ∀ a name, name? a = some name ↔ a = item name) :
    ListsFirst item list (list.filterMap name?).eraseDups where
  nodup := nodup_eraseDups _
  mem_iff _ := List.mem_eraseDups.trans (mem_filterMap_iff hitem)
  ordered := (pairwise_eraseDups _).imp fun h => h.of_filterMap hitem

end FirstOccurrences

/-! ### The walk -/

/-- A walk in search of names: those it has seen, and those it has found, in the order in which it
found them. -/
structure NameFinder where
  seen : Std.HashSet String
  found : List String

/-- A name is found if it has not been seen before. -/
def NameFinder.visit (finder : NameFinder) (name : String) : NameFinder :=
  if name ∈ finder.seen then finder
  else { seen := finder.seen.insert name, found := finder.found ++ [name] }

/-- The walk over an expression, the left side of an operation before the right one. -/
def Expr.findNames (finder : NameFinder) : Expr → NameFinder
  | constant _ => finder
  | reference name => finder.visit name
  | operation left _ right => right.findNames (left.findNames finder)

/-- The walk has passed these names: it has seen them all, and found each of them once. -/
structure NameFinder.HasFound (finder : NameFinder) (names : List String) : Prop where
  mem_seen_iff : ∀ name, name ∈ finder.seen ↔ name ∈ names
  found_eq : finder.found = names.eraseDups

variable {finder : NameFinder} {names : List String}

theorem NameFinder.HasFound.visit (h : finder.HasFound names) (name : String) :
    (finder.visit name).HasFound (names ++ [name]) := by
  unfold NameFinder.visit
  split
  · next hseen =>
    have hmem : name ∈ names := (h.mem_seen_iff name).mp hseen
    refine ⟨fun other => ?_, ?_⟩
    · rw [h.mem_seen_iff, List.mem_append, List.mem_singleton]
      exact ⟨.inl, fun hother => hother.elim id fun heq => heq ▸ hmem⟩
    · rw [h.found_eq, eraseDups_append_singleton, if_pos hmem]
  · next hseen =>
    have hmem : name ∉ names := mt (h.mem_seen_iff name).mpr hseen
    refine ⟨fun other => ?_, ?_⟩
    · rw [Std.HashSet.mem_insert, h.mem_seen_iff, List.mem_append, List.mem_singleton, beq_iff_eq,
        or_comm, eq_comm]
    · rw [h.found_eq, eraseDups_append_singleton, if_neg hmem]

/-- **A walk over an expression passes its names.** -/
theorem NameFinder.HasFound.findNames (h : finder.HasFound names) (e : Expr) :
    (e.findNames finder).HasFound (names ++ e.names) := by
  induction e generalizing finder names with
  | constant value => simpa [Expr.findNames] using h
  | reference name => exact h.visit name
  | operation left operator right ihleft ihright =>
    rw [Expr.names_operation, ← List.append_assoc]
    exact ihright (ihleft h)

theorem found_findNames (e : Expr) : (e.findNames ⟨∅, []⟩).found = e.references := by
  have hstart : NameFinder.HasFound ⟨∅, []⟩ [] := ⟨by simp, rfl⟩
  exact (hstart.findNames e).found_eq

/-! ### Names and tokens -/

/-- The name that a token is, if it is one. -/
def Token.name? : Token → Option String
  | identifier name => some name
  | _ => none

theorem Leaf.name?_eq_some_iff (leaf : Leaf) (name : String) :
    leaf.name? = some name ↔ leaf = .reference name := by
  cases leaf <;> simp [name?]

theorem Token.name?_eq_some_iff (token : Token) (name : String) :
    token.name? = some name ↔ token = .identifier name := by
  cases token <;> simp [name?]

@[simp] theorem Operator.name?_token (op : Operator) : op.token.name? = none := by
  cases op <;> rfl

theorem Expr.names_negated (e : Expr) : e.negated.names = e.names := by
  cases e <;> rfl

/-- **The names of a tree are those of its tokens**, in the same order. -/
theorem names_eq_of_derives {level : Level} {ts : List Token} {e : Expr} {n : Nat}
    (h : Derives level ts e n) : ts.filterMap Token.name? = e.names := by
  induction h with
  | ofTerm _ ih => exact ih
  | ofFactor _ ih => exact ih
  | sum _ _ _ ihl ihr => simp [ihl, ihr]
  | product _ _ _ ihl ihr => simp [ihl, ihr]
  | number value => rfl
  | name name => rfl
  | minus _ ih => rw [Expr.names_negated, ← ih]; rfl
  | group _ ih =>
    rw [List.filterMap_cons_none rfl, List.filterMap_append, ih]
    exact List.append_nil _

/-- What has been read of a text has the names among its tokens, in the same order. -/
theorem names_of_parse {text : String} {e : Expr} (h : Expr.parse text = .ok e) :
    ∃ ts, lex text = .ok ts ∧ ts.filterMap Token.name? = e.names := by
  have hinput : (TokenSource.input (Lexer.ofString text)).parseWithin maxDepth = .ok e := h
  obtain ⟨position, hstop⟩ := Input.exists_ending_of_parseWithin hinput
  obtain ⟨n, hderives, -⟩ := Input.derives_of_parseWithin (by decide) hinput
  refine ⟨_, by rw [lex_eq_toTokens, Input.toTokens, hstop], ?_⟩
  rw [List.filterMap_append, names_eq_of_derives hderives]
  exact List.append_nil _

/-- **The list of references is exact.**  Without repetitions, and as they first occur from left to
right, it lists the names that stand at the leaves; this is the one such list, and it is what a walk
finds that remembers the names it has seen.  Where the expression has been read of a text, it lists
the identifiers among the tokens of the text as they first occur. -/
theorem references_exact (e : Expr) :
    (∀ names, ListsFirst Leaf.reference e.leaves names ↔ names = e.references) ∧
    (e.findNames ⟨∅, []⟩).found = e.references ∧
    ∀ text, (Parser.ofText text).parse.1 = .ok e → ∃ ts, lex text = .ok ts ∧
      ∀ names, ListsFirst Token.identifier ts names ↔ names = e.references := by
  refine ⟨fun names => ?_, found_findNames e, fun text h => ?_⟩
  · have hlists : ListsFirst Leaf.reference e.leaves e.references := by
      rw [Expr.references, ← Expr.filterMap_name?_leaves]
      exact listsFirst_eraseDups Leaf.name?_eq_some_iff
    exact ⟨fun h => h.unique hlists, fun h => h ▸ hlists⟩
  · have hparse : Expr.parse text = .ok e := (Parser.outcome_ofText text).symm.trans h
    -- The names of the tokens are those of the leaves, in the same order, so both have one list.
    obtain ⟨ts, hlex, hnames⟩ := names_of_parse hparse
    refine ⟨ts, hlex, fun names => ?_⟩
    have hlists : ListsFirst Token.identifier ts e.references := by
      rw [Expr.references, ← hnames]
      exact listsFirst_eraseDups Token.name?_eq_some_iff
    exact ⟨fun h => h.unique hlists, fun h => h ▸ hlists⟩

/-- Names that differ in case differ, and a minus sign leaves their order as it is. -/
theorem references_exact_upper_case :
    let e : Expr := .operation
      (.operation (.constant (.integer (-1))) .multiply (.reference "b")) .add
      (.operation (.reference "B") .multiply (.reference "b"))
    (Parser.ofText "-b+B*b").parse.1 = .ok e ∧ e.references = ["b", "B"] ∧
      ∃ ts, lex "-b+B*b" = .ok ts ∧ ListsFirst Token.identifier ts ["b", "B"] := by
  intro e
  have hparse : (Parser.ofText "-b+B*b").parse.1 = .ok e := by with_unfolding_all rfl
  have hreferences : e.references = ["b", "B"] := rfl
  obtain ⟨ts, hlex, hlists⟩ := (references_exact e).2.2 _ hparse
  exact ⟨hparse, hreferences, ts, hlex, (hlists _).mpr hreferences.symm⟩

end Abacus
