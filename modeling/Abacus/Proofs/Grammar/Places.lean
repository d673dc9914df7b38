import Abacus.Proofs.Grammar.Derivation
import Mathlib.Data.List.Induction

/-!
# Places between tokens

What may come next in a sequence of tokens depends on little of what came before: whether an operand
has to begin or one is complete, and how many groups are open.  Such a place is found by reading the
tokens once from left to right, with no regard to precedence.  Tokens that come to a place are the
beginning of an expression, and tokens that come to none are the beginning of no expression.

## Main definitions

* `IsExpression`, `IsFactor` — the tokens of an expression and of a factor, whatever the tree.
* `Place` — a place; `Place.next?` and `Place.after?` are those behind one token and behind many.
* `Awaits` — tokens that end where an operand has to begin.
* `Place.Holds` — what the tokens before a place are.

## Main results

* `after?_of_derives` — derived tokens lead from before an operand to behind it.
* `Awaits.append_expression` — an operand and the missing parentheses make an expression.
* `holds_of_after?` — **the tokens before a place are what it says.**
* `exists_isExpression_of_after?`, `isExpression_iff_after?` — beginnings, and whole expressions.
* `exists_group_iff`, `begins_with_factor_iff` — places in a group, and places before an operand.
-/

namespace Abacus

/-- The tokens derive an expression. -/
def IsExpression (ts : List Token) : Prop := ∃ e n, Derives .expression ts e n

/-- The tokens derive a factor. -/
def IsFactor (ts : List Token) : Prop := ∃ e n, Derives .factor ts e n

/-! ### Expressions of expressions -/

section IsExpression

variable {ts ls rs : List Token}

theorem IsFactor.isExpression (h : IsFactor ts) : IsExpression ts := by
  obtain ⟨e, n, h⟩ := h
  exact ⟨e, n, .ofTerm (.ofFactor h)⟩

theorem isFactor_number (value : Number) : IsFactor [.number value] := ⟨_, _, .number value⟩

theorem isFactor_name (name : String) : IsFactor [.identifier name] := ⟨_, _, .name name⟩

theorem IsFactor.minus (h : IsFactor ts) : IsFactor (.minus :: ts) := by
  obtain ⟨e, n, h⟩ := h
  exact ⟨_, _, .minus h⟩

theorem IsExpression.group (h : IsExpression ts) :
    IsFactor (.openParen :: (ts ++ [.closeParen])) := by
  obtain ⟨e, n, h⟩ := h
  exact ⟨_, _, .group h⟩

/-- Any operator joins a factor to an expression: one that joins terms to all of it, and one that
joins factors to its last term. -/
theorem IsExpression.append_factor (hl : IsExpression ls) (op : Operator) (hr : IsFactor rs) :
    IsExpression (ls ++ op.token :: rs) := by
  obtain ⟨l, m, hl⟩ := hl
  obtain ⟨r, n, hr⟩ := hr
  by_cases hop : op = .add ∨ op = .subtract
  · exact ⟨_, _, .sum hop hl (.ofFactor hr)⟩
  · have hfactors : op = .multiply ∨ op = .divide := by cases op <;> simp at hop ⊢
    -- A product binds more tightly: it joins the last term of a sum, not the sum.
    cases hl with
    | ofTerm hl => exact ⟨_, _, .ofTerm (.product hfactors hl hr)⟩
    | sum hop' hl' hterm =>
      have hproduct := Derives.product hfactors hterm hr
      rw [List.append_assoc, List.cons_append]
      exact ⟨_, _, .sum hop' hl' hproduct⟩

/-- Any operator joins two expressions, though the tree may be another than theirs. -/
theorem IsExpression.append (hl : IsExpression ls) (op : Operator) (hr : IsExpression rs) :
    IsExpression (ls ++ op.token :: rs) := by
  obtain ⟨r, n, hr⟩ := hr
  -- the first factor of the right side is joined to the left one, and the rest follows as before
  generalize Level.expression = level at hr
  induction hr with
  | ofTerm _ ih => exact ih
  | ofFactor _ ih => exact ih
  | @sum as bs a b m n op' hop _ hb iha _ =>
    obtain ⟨l, k, ha⟩ := iha
    rw [← List.cons_append, ← List.append_assoc]
    exact ⟨_, _, .sum hop ha hb⟩
  | @product as bs a b m n op' _ _ hb iha _ =>
    rw [← List.cons_append, ← List.append_assoc]
    exact iha.append_factor op' ⟨b, n, hb⟩
  | number value => exact hl.append_factor op (isFactor_number value)
  | name name => exact hl.append_factor op (isFactor_name name)
  | minus h _ => exact hl.append_factor op (IsFactor.minus ⟨_, _, h⟩)
  | group h _ => exact hl.append_factor op (IsExpression.group ⟨_, _, h⟩)

/-- A minus sign before an expression is one before its first factor. -/
theorem IsExpression.minus (h : IsExpression ts) : IsExpression (.minus :: ts) := by
  obtain ⟨e, n, h⟩ := h
  generalize Level.expression = level at h
  -- The minus goes down to the leftmost factor, and what is joined to that stays.
  induction h with
  | ofTerm _ ih => exact ih
  | ofFactor _ ih => exact ih
  | sum hop _ hb iha _ =>
    obtain ⟨l, k, ha⟩ := iha
    exact ⟨_, _, .sum hop ha hb⟩
  | @product as bs a b m n op' _ _ hb iha _ => exact iha.append_factor op' ⟨b, n, hb⟩
  | number value => exact (isFactor_number value).minus.isExpression
  | name name => exact (isFactor_name name).minus.isExpression
  | minus h _ => exact (IsFactor.minus ⟨_, _, h⟩).minus.isExpression
  | group h _ => exact (IsExpression.group ⟨_, _, h⟩).minus.isExpression

end IsExpression

/-! ### Places -/

/-- A place between tokens, with so many groups open around it. -/
inductive Place
  /-- An operand has to begin. -/
  | awaiting (groups : Nat)
  /-- An operand is complete. -/
  | behind (groups : Nat)

namespace Place

/-- The place behind a token, if the token may stand here. -/
def next? : Place → Token → Option Place
  | awaiting groups, .number _ => some (behind groups)
  | awaiting groups, .identifier _ => some (behind groups)
  | awaiting groups, .minus => some (awaiting groups)
  | awaiting groups, .openParen => some (awaiting (groups + 1))
  | behind groups, .plus => some (awaiting groups)
  | behind groups, .minus => some (awaiting groups)
  | behind groups, .star => some (awaiting groups)
  | behind groups, .slash => some (awaiting groups)
  | behind (groups + 1), .closeParen => some (behind groups)
  | _, _ => none

/-- The place behind tokens that come one after the other. -/
def after? (place : Place) (ts : List Token) : Option Place := ts.foldlM next? place

variable {place : Place} {ts ts' : List Token} {groups : Nat}

@[simp] theorem after?_nil : place.after? [] = some place := rfl

theorem after?_cons {token : Token} :
    place.after? (token :: ts) = (place.next? token).bind fun place => place.after? ts := rfl

theorem after?_append :
    place.after? (ts ++ ts') = (place.after? ts).bind fun place => place.after? ts' := by
  rw [after?, List.foldlM_append]
  rfl

theorem after?_cons_eq_some {token : Token} {place' : Place} :
    place.after? (token :: ts) = some place' ↔
      ∃ place'', place.next? token = some place'' ∧ place''.after? ts = some place' := by
  rw [after?_cons, Option.bind_eq_some_iff]

theorem after?_append_eq_some {place' : Place} :
    place.after? (ts ++ ts') = some place' ↔
      ∃ place'', place.after? ts = some place'' ∧ place''.after? ts' = some place' := by
  rw [after?_append, Option.bind_eq_some_iff]

@[simp] theorem next?_operator (op : Operator) :
    (behind groups).next? op.token = some (awaiting groups) := by
  cases op <;> rfl

end Place

open Place (awaiting behind)

/-- **Derived tokens lead from before an operand to behind it,** with as many groups open. -/
theorem after?_of_derives {level : Level} {ts : List Token} {e : Expr} {n : Nat}
    (h : Derives level ts e n) :
    ∀ groups, (awaiting groups).after? ts = some (behind groups) := by
  induction h with
  | ofTerm _ ih => exact ih
  | ofFactor _ ih => exact ih
  | sum _ _ _ ihl ihr =>
    intro groups
    simp [Place.after?_append, Place.after?_cons, ihl groups, ihr groups]
  | product _ _ _ ihl ihr =>
    intro groups
    simp [Place.after?_append, Place.after?_cons, ihl groups, ihr groups]
  | number value => exact fun groups => rfl
  | name name => exact fun groups => rfl
  | minus _ ih => exact ih
  | group _ ih =>
    intro groups
    -- The group is read one level further in and closed by its last parenthesis.
    have hinner := ih (groups + 1)
    rw [Place.after?_cons]
    show (awaiting (groups + 1)).after? _ = _
    rw [Place.after?_append, hinner]
    rfl

/-! ### The tokens before a place -/

/-- `Awaits groups before` says that the tokens end where an operand has to begin, inside of so many
groups: at the beginning, behind a minus sign or a parenthesis that begins one, or behind an
operator with its left side. -/
inductive Awaits : Nat → List Token → Prop
  | nil : Awaits 0 []
  | minus {groups : Nat} {before : List Token} (h : Awaits groups before) :
      Awaits groups (before ++ [.minus])
  | group {groups : Nat} {before : List Token} (h : Awaits groups before) :
      Awaits (groups + 1) (before ++ [.openParen])
  | operator {groups : Nat} {before inner : List Token} (h : Awaits groups before)
      (hinner : IsExpression inner) (op : Operator) :
      Awaits groups (before ++ (inner ++ [op.token]))

/-- **Where an operand has to begin, an expression and the missing parentheses make one of all.** -/
theorem Awaits.append_expression {groups : Nat} {before : List Token} (h : Awaits groups before) :
    ∀ {inner : List Token}, IsExpression inner →
      IsExpression (before ++ (inner ++ List.replicate groups .closeParen)) := by
  -- The tokens before are taken off from the end, and what was found so far takes them in front.
  induction h with
  | nil => intro inner hinner; simpa using hinner
  | minus _ ih =>
    intro inner hinner
    have hminus := ih hinner.minus
    simpa using hminus
  | group _ ih =>
    intro inner hinner
    have hgroup := ih hinner.group.isExpression
    simpa [List.replicate_succ] using hgroup
  | operator _ hleft op ih =>
    intro inner hinner
    have hboth := ih (hleft.append op hinner)
    simpa using hboth

/-- A place inside of a group has the parenthesis that opened it before it, and what stands behind
this is the beginning of an expression that a complete operand ends. -/
theorem Awaits.exists_group {groups' : Nat} {before : List Token} (h : Awaits groups' before) :
    ∀ {groups : Nat} {inner : List Token}, groups' = groups + 1 → IsExpression inner →
      ∃ outer inner', before ++ inner = outer ++ .openParen :: inner' ∧ Awaits groups outer ∧
        IsExpression inner' := by
  induction h with
  | nil => intro groups inner hgroups; exact absurd hgroups (Nat.succ_ne_zero groups).symm
  | minus _ ih =>
    intro groups inner hgroups hinner
    obtain ⟨outer, inner', heq, houter, hinner'⟩ := ih hgroups hinner.minus
    exact ⟨outer, inner', by simpa using heq, houter, hinner'⟩
  | @group groups before h ih =>
    intro groups' inner hgroups hinner
    -- The innermost open parenthesis is the one looked for.
    obtain rfl : groups = groups' := Nat.succ.inj hgroups
    exact ⟨before, inner, by simp, h, hinner⟩
  | operator _ hleft op ih =>
    intro groups inner hgroups hinner
    obtain ⟨outer, inner', heq, houter, hinner'⟩ := ih hgroups (hleft.append op hinner)
    exact ⟨outer, inner', by simpa using heq, houter, hinner'⟩

/-- What the tokens before a place are: those before an operand, or these and an operand. -/
def Place.Holds (before : List Token) : Place → Prop
  | awaiting groups => Awaits groups before
  | behind groups => ∃ outer inner, before = outer ++ inner ∧ Awaits groups outer ∧
      IsExpression inner

theorem holds_behind_of_awaits {groups : Nat} {before inner : List Token}
    (h : Awaits groups before) (hinner : IsExpression inner) :
    (behind groups).Holds (before ++ inner) :=
  ⟨before, inner, rfl, h, hinner⟩

theorem holds_awaiting_of_behind {groups : Nat} {before : List Token}
    (h : (behind groups).Holds before) (op : Operator) :
    (awaiting groups).Holds (before ++ [op.token]) := by
  obtain ⟨outer, inner, rfl, houter, hinner⟩ := h
  rw [List.append_assoc]
  exact .operator houter hinner op

/-- A token leads to the place that it says. -/
theorem Place.Holds.next {before : List Token} {place place' : Place} {token : Token}
    (h : place.Holds before) (hnext : place.next? token = some place') :
    place'.Holds (before ++ [token]) := by
  cases place with
  | awaiting groups =>
    cases token with
    | number value =>
      cases hnext
      exact holds_behind_of_awaits h (isFactor_number value).isExpression
    | identifier name =>
      cases hnext
      exact holds_behind_of_awaits h (isFactor_name name).isExpression
    | minus => cases hnext; exact Awaits.minus h
    | openParen => cases hnext; exact Awaits.group h
    | _ => cases hnext
  | behind groups =>
    cases token with
    | plus => cases hnext; exact holds_awaiting_of_behind h .add
    | minus => cases hnext; exact holds_awaiting_of_behind h .subtract
    | star => cases hnext; exact holds_awaiting_of_behind h .multiply
    | slash => cases hnext; exact holds_awaiting_of_behind h .divide
    | closeParen =>
      cases groups with
      | zero => cases hnext
      | succ groups =>
        cases hnext
        -- The group that is closed is a factor, and an operand is complete behind it.
        obtain ⟨outer, inner, rfl, houter, hinner⟩ := h
        obtain ⟨outer', inner', heq, houter', hinner'⟩ := houter.exists_group rfl hinner
        have hgroup := holds_behind_of_awaits houter' hinner'.group.isExpression
        simpa [heq] using hgroup
    | _ => cases hnext

/-- **The tokens before a place are what it says.** -/
theorem holds_of_after? {before : List Token} {place : Place}
    (h : (awaiting 0).after? before = some place) : place.Holds before := by
  induction before using List.reverseRecOn generalizing place with
  | nil =>
    obtain rfl := Option.some.inj h
    exact Awaits.nil
  | append_singleton before token ih =>
    obtain ⟨place', hplace', h⟩ := Place.after?_append_eq_some.mp h
    obtain ⟨place'', hnext, h⟩ := Place.after?_cons_eq_some.mp h
    obtain rfl := Option.some.inj h
    exact (ih hplace').next hnext

/-! ### Beginnings of expressions -/

/-- **Tokens that come to a place are the beginning of an expression.** -/
theorem exists_isExpression_of_after? {before : List Token} {place : Place}
    (h : (awaiting 0).after? before = some place) : ∃ more, IsExpression (before ++ more) := by
  have hplace := holds_of_after? h
  cases place with
  | awaiting groups =>
    have hnumber := (isFactor_number (.integer 0)).isExpression
    exact ⟨_, Awaits.append_expression hplace hnumber⟩
  | behind groups =>
    obtain ⟨outer, inner, rfl, houter, hinner⟩ := hplace
    have hclosed := houter.append_expression hinner
    rw [← List.append_assoc] at hclosed
    exact ⟨_, hclosed⟩

/-- **Tokens are an expression if they come to the end of one outside of all groups.** -/
theorem isExpression_iff_after? {ts : List Token} :
    IsExpression ts ↔ (awaiting 0).after? ts = some (behind 0) := by
  constructor
  · rintro ⟨e, n, h⟩
    exact after?_of_derives h 0
  · intro h
    obtain ⟨outer, inner, rfl, houter, hinner⟩ := holds_of_after? h
    simpa using houter.append_expression hinner

/-- **A place is behind an expression directly inside of a group exactly if a group is open there
and an operand is complete.** -/
theorem exists_group_iff {before : List Token} {place : Place}
    (h : (awaiting 0).after? before = some place) :
    (∃ outer inner, before = outer ++ .openParen :: inner ∧ IsExpression inner) ↔
      ∃ groups, place = behind (groups + 1) := by
  constructor
  · rintro ⟨outer, inner, rfl, e, n, hinner⟩
    obtain ⟨place', -, h⟩ := Place.after?_append_eq_some.mp h
    obtain ⟨place'', hnext, h⟩ := Place.after?_cons_eq_some.mp h
    -- A parenthesis opens a group only where a factor is awaited.
    cases place' with
    | awaiting groups =>
      cases hnext
      rw [after?_of_derives hinner] at h
      exact ⟨groups, (Option.some.inj h).symm⟩
    | behind groups => cases hnext
  · rintro ⟨groups, rfl⟩
    obtain ⟨outer, inner, rfl, houter, hinner⟩ := holds_of_after? h
    obtain ⟨outer', inner', heq, -, hinner'⟩ := houter.exists_group rfl hinner
    exact ⟨outer', inner', heq, hinner'⟩

/-- Behind complete tokens no operand has to begin. -/
theorem not_awaiting_of_derives {level : Level} {ts : List Token} {e : Expr}
    {n groups groups' : Nat} (h : Derives level ts e n) :
    (awaiting groups).after? ts ≠ some (awaiting groups') := by
  rw [after?_of_derives h]
  exact nofun

/-- What goes on with a factor at every place before an operand. -/
def FactorsBegin (ts : List Token) : Prop :=
  ∀ (groups groups' : Nat) (before more : List Token), ts = before ++ more →
    (awaiting groups).after? before = some (awaiting groups') →
    ∃ factor rest, more = factor ++ rest ∧ IsFactor factor

theorem FactorsBegin.operation {level : Level} {ls rs : List Token} {l : Expr} {n : Nat}
    {op : Operator} (hl : Derives level ls l n) (ihl : FactorsBegin ls) (ihr : FactorsBegin rs) :
    FactorsBegin (ls ++ op.token :: rs) := by
  intro groups groups' before more heq hplace
  obtain ⟨front, rfl, hmore⟩ | ⟨back, rfl, rfl⟩ := List.append_eq_append_iff.mp heq
  · -- the place is behind the left side, so it is behind the operator too
    cases front with
    | nil =>
      rw [List.append_nil] at hplace
      exact absurd hplace (not_awaiting_of_derives hl)
    | cons token front =>
      obtain ⟨rfl, rfl⟩ := List.cons.inj hmore
      obtain ⟨place, hleft, hplace⟩ := Place.after?_append_eq_some.mp hplace
      obtain ⟨place', hnext, hplace⟩ := Place.after?_cons_eq_some.mp hplace
      rw [after?_of_derives hl] at hleft
      obtain rfl := Option.some.inj hleft
      rw [Place.next?_operator] at hnext
      obtain rfl := Option.some.inj hnext
      exact ihr groups groups' front more rfl hplace
  · obtain ⟨factor, rest, rfl, hfactor⟩ := ihl groups groups' before back rfl hplace
    exact ⟨factor, rest ++ op.token :: rs, by simp, hfactor⟩

/-- All of a factor is one, and apart from that there are the places behind its first token. -/
theorem FactorsBegin.cons {token : Token} {ts : List Token} (hfactor : IsFactor (token :: ts))
    (htail : ∀ (groups groups' : Nat) (place : Place) (before more : List Token),
      ts = before ++ more → (awaiting groups).next? token = some place →
      place.after? before = some (awaiting groups') →
      ∃ factor rest, more = factor ++ rest ∧ IsFactor factor) :
    FactorsBegin (token :: ts) := by
  intro groups groups' before more heq hplace
  -- At the front the factor is the whole; behind the token the tail decides.
  cases before with
  | nil => exact ⟨token :: ts, [], by rw [List.append_nil, heq, List.nil_append], hfactor⟩
  | cons token' before =>
    rw [List.cons_append, List.cons.injEq] at heq
    obtain ⟨rfl, rfl⟩ := heq
    obtain ⟨place, hnext, hplace⟩ := Place.after?_cons_eq_some.mp hplace
    exact htail groups groups' place before more rfl hnext hplace

/-- A token that is a factor has only one place before an operand. -/
theorem FactorsBegin.single {token : Token} (hfactor : IsFactor [token]) :
    FactorsBegin [token] := by
  refine FactorsBegin.cons hfactor fun groups groups' place before more heq hnext hplace => ?_
  obtain ⟨rfl, -⟩ := List.append_eq_nil_iff.mp heq.symm
  obtain ⟨e, n, hderives⟩ := hfactor
  exact absurd (Place.after?_cons_eq_some.mpr ⟨place, hnext, hplace⟩)
    (not_awaiting_of_derives hderives)

theorem FactorsBegin.group {ts : List Token} {e : Expr} {n : Nat}
    (h : Derives .expression ts e n) (ih : FactorsBegin ts) :
    FactorsBegin (.openParen :: (ts ++ [.closeParen])) := by
  refine FactorsBegin.cons (IsExpression.group ⟨e, n, h⟩)
    fun groups groups' place before more heq hnext hplace => ?_
  cases hnext
  obtain ⟨front, rfl, hmore⟩ | ⟨back, rfl, rfl⟩ := List.append_eq_append_iff.mp heq
  · -- the place is behind what is in the group, where no operand begins, nor behind the group
    obtain ⟨place, hinner, hplace⟩ := Place.after?_append_eq_some.mp hplace
    rw [after?_of_derives h] at hinner
    obtain rfl := Option.some.inj hinner
    cases front with
    | nil => cases hplace
    | cons token front =>
      obtain ⟨rfl, hnil⟩ := List.cons.inj hmore
      obtain ⟨rfl, -⟩ := List.append_eq_nil_iff.mp hnil.symm
      cases hplace
  · obtain ⟨factor, rest, rfl, hfactor⟩ := ih (groups + 1) groups' before back rfl hplace
    exact ⟨factor, rest ++ [.closeParen], by simp, hfactor⟩

/-- Where an operand has to begin inside of derived tokens, a factor begins. -/
theorem factorsBegin_of_derives {level : Level} {ts : List Token} {e : Expr} {n : Nat}
    (h : Derives level ts e n) : FactorsBegin ts := by
  -- A sum and a product are cut at their operator; a minus and a group at their first token.
  induction h with
  | ofTerm _ ih => exact ih
  | ofFactor _ ih => exact ih
  | sum _ hl _ ihl ihr => exact FactorsBegin.operation hl ihl ihr
  | product _ hl _ ihl ihr => exact FactorsBegin.operation hl ihl ihr
  | number value => exact FactorsBegin.single (isFactor_number value)
  | name name => exact FactorsBegin.single (isFactor_name name)
  | minus h ih =>
    refine FactorsBegin.cons (IsFactor.minus ⟨_, _, h⟩)
      fun groups groups' place before more heq hnext hplace => ?_
    cases hnext
    exact ih groups groups' before more heq hplace
  | group h ih => exact FactorsBegin.group h ih

/-- **An operand has to begin at a place exactly if every expression goes on with a factor.** -/
theorem begins_with_factor_iff {before : List Token} {place : Place}
    (h : (awaiting 0).after? before = some place) :
    (∀ more, IsExpression (before ++ more) →
        ∃ factor rest, more = factor ++ rest ∧ IsFactor factor) ↔
      ∃ groups, place = awaiting groups := by
  constructor
  · intro hall
    cases place with
    | awaiting groups => exact ⟨groups, rfl⟩
    | behind groups =>
      -- the open groups could be closed here, and no factor begins with a closing parenthesis
      obtain ⟨outer, inner, rfl, houter, hinner⟩ := holds_of_after? h
      have hclosed := houter.append_expression hinner
      rw [← List.append_assoc] at hclosed
      obtain ⟨factor, rest, heq, e, n, hfactor⟩ := hall _ hclosed
      have hbehind := after?_of_derives hfactor 0
      cases factor with
      | nil => cases hbehind
      | cons token factor =>
        have hmem : token ∈ List.replicate groups Token.closeParen := by simp [heq]
        obtain rfl := List.eq_of_mem_replicate hmem
        cases hbehind
  · rintro ⟨groups, rfl⟩ more ⟨e, n, hall⟩
    exact factorsBegin_of_derives hall 0 groups before more rfl h

end Abacus
