/-!
# Lists without repetitions

Of the elements of a list only the first occurrences are kept, in their order.

## Main results

* `nodup_eraseDups` — no element is kept twice.
* `eraseDups_filter`, `find?_eraseDups` — it makes no difference whether repetitions are erased
  before or after elements are selected, and an element searched for is found all the same.
-/

namespace Abacus

variable {κ : Type} [DecidableEq κ]

theorem nodup_eraseDups (keys : List κ) : keys.eraseDups.Nodup := by
  cases keys with
  | nil => exact List.nodup_nil
  | cons key keys =>
    rw [List.eraseDups_cons, List.nodup_cons, List.mem_eraseDups]
    exact ⟨by simp, nodup_eraseDups _⟩
termination_by keys.length
decreasing_by exact Nat.lt_succ_of_le (List.length_filter_le _ _)

theorem eraseDups_filter (p : κ → Bool) (keys : List κ) :
    (keys.filter p).eraseDups = keys.eraseDups.filter p := by
  cases keys with
  | nil => rfl
  | cons key keys =>
    have hrest := eraseDups_filter p (keys.filter fun other => !other == key)
    rw [List.eraseDups_cons]
    cases hp : p key with
    | true =>
      rw [List.filter_cons_of_pos hp, List.filter_cons_of_pos hp, List.eraseDups_cons, ← hrest,
        List.filter_filter, List.filter_filter]
      simp only [Bool.and_comm]
    | false =>
      -- A key that is left out takes its later occurrences with it.
      have hsame : (keys.filter fun other => !other == key).filter p = keys.filter p := by
        rw [List.filter_filter]
        refine List.filter_congr fun other _ => ?_
        by_cases hother : other = key
        · simp [hother, hp]
        · simp [hother]
      rw [List.filter_cons_of_neg (by simp [hp]), List.filter_cons_of_neg (by simp [hp]), ← hrest,
        hsame]
termination_by keys.length
decreasing_by exact Nat.lt_succ_of_le (List.length_filter_le _ _)

theorem head?_eraseDups (keys : List κ) : keys.eraseDups.head? = keys.head? := by
  cases keys with
  | nil => rfl
  | cons key keys => rw [List.eraseDups_cons, List.head?_cons, List.head?_cons]

/-- The first element of a kind is never a repetition. -/
theorem find?_eraseDups (p : κ → Bool) (keys : List κ) : keys.eraseDups.find? p = keys.find? p := by
  rw [← List.head?_filter, ← eraseDups_filter, head?_eraseDups, List.head?_filter]

end Abacus
