/-!
# Caches of the most recent entries

A cache holds a limited number of entries, each found by its key, and it keeps them in the order in
which they were used last.  Setting a value and finding one are uses; what does not fit any more
falls out, and that is what was not used for the longest time.  There is no cache without room.

A calculator needs no more of its cache than the operations.  A list that has the entry used last in
front is a cache, though not a fast one.

## Main definitions

* `Capacity` — a number of entries that there can be room for, and `Capacity.ofNat?` for any number.
* `Cache` — the operations of a cache.
* `RecencyList` — a list as a cache, with distinct keys and no more entries than fit.
* `RecencyList.touch` — puts an entry in front.
-/

namespace Abacus

/-- A number of entries that there can be room for. -/
abbrev Capacity : Type := {n : Nat // n ≠ 0}

/-- The number, if there can be room for so many. -/
def Capacity.ofNat? (n : Nat) : Option Capacity := if h : n = 0 then none else some ⟨n, h⟩

/-- A cache of a limited number of entries. -/
class Cache (σ : Type) (κ ν : outParam Type) where
  /-- A cache without entries that has room for the given number. -/
  create : Capacity → σ
  /-- The number of entries that there is room for. -/
  capacity : σ → Capacity
  /-- The entries, the one used last in front. -/
  entries : σ → List (κ × ν)
  /-- The number of entries. -/
  size : σ → Nat
  /-- The value of a key; finding it is a use. -/
  get : σ → κ → Option ν × σ
  /-- Sets the value of a key, which is a use. -/
  put : σ → κ → ν → σ
  /-- Takes all entries out. -/
  clear : σ → σ

/-- The keys, the one used last in front. -/
def Cache.keys {σ κ ν : Type} [Cache σ κ ν] (cache : σ) : List κ := (entries cache).map Prod.fst

/-! ### A list as a cache -/

/-- The entries as a list, the one used last in front. -/
structure RecencyList (κ ν : Type) where
  capacity : Capacity
  entries : List (κ × ν)
  length_le : entries.length ≤ capacity.val
  nodup_keys : (entries.map Prod.fst).Nodup

namespace RecencyList

variable {κ ν : Type}

/-- The list without entries. -/
def empty (capacity : Capacity) : RecencyList κ ν := ⟨capacity, [], Nat.zero_le _, .nil⟩

variable [DecidableEq κ]

/-- The entries other than that of a key. -/
def without (entries : List (κ × ν)) (key : κ) : List (κ × ν) := entries.filter (·.1 ≠ key)

theorem nodup_keys_cons_without {entries : List (κ × ν)} (h : (entries.map Prod.fst).Nodup)
    (key : κ) (value : ν) : (((key, value) :: without entries key).map Prod.fst).Nodup := by
  refine List.nodup_cons.2 ⟨?_, (List.filter_sublist.map _).nodup h⟩
  simp [without]

/-- Puts an entry in front, in the place of one with the same key, and drops what does not fit. -/
def touch (list : RecencyList κ ν) (key : κ) (value : ν) : RecencyList κ ν where
  capacity := list.capacity
  entries := ((key, value) :: without list.entries key).take list.capacity.val
  length_le := List.length_take_le _ _
  nodup_keys :=
    ((List.take_sublist _ _).map _).nodup (nodup_keys_cons_without list.nodup_keys key value)

/-- The value of a key, the entry of which comes to the front. -/
def get (list : RecencyList κ ν) (key : κ) : Option ν × RecencyList κ ν :=
  match list.entries.find? (·.1 = key) with
  | some (_, value) => (some value, list.touch key value)
  | none => (none, list)

instance : Cache (RecencyList κ ν) κ ν where
  create := empty
  capacity := capacity
  entries := entries
  size list := list.entries.length
  get := get
  put := touch
  clear list := empty list.capacity

end RecencyList

end Abacus
