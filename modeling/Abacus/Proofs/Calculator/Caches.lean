import Abacus.Calculator.Basic
import Mathlib

/-!
# What a cache keeps

Of a cache it is required what its operations do to the entries and to their order: to get a value
brings its entry to the front, to put one under a new key puts its entry there, and if there is no
room for it then the entry at the end, which was used least recently, falls out.  What follows for a
calculator with such a cache is said in terms of the entries, of which there are none without a
cache.

## Main definitions

* `LawfulCache` — the laws of a cache of the most recent entries.
* `CalculatorOver.entries`, `CalculatorOver.keys`, `CalculatorOver.room` — the programs remembered,
  their texts, and how many there is room for.

## Main results

* `RecencyList.lawfulCache` — a list is such a cache.
* `CalculatorOver.find_cases` — **what a look into the cache finds, and what it does to the order.**
* `CalculatorOver.entries_remember` — **what comes in front, and what falls out.**
-/

namespace Abacus

/-! ### The laws of a cache -/

/-- A cache that keeps the entries used last.  Nothing is said of putting a value under a key that
has one. -/
class LawfulCache (σ : Type) (κ ν : outParam Type) [DecidableEq κ] [Cache σ κ ν] : Prop where
  entries_create (capacity : Capacity) : Cache.entries (Cache.create capacity : σ) = []
  capacity_create (capacity : Capacity) : Cache.capacity (Cache.create capacity : σ) = capacity
  size_eq (cache : σ) : Cache.size cache = (Cache.entries cache).length
  /-- The value of a key is found. -/
  get_of_mem {cache : σ} {key : κ} {value : ν} (h : (key, value) ∈ Cache.entries cache) :
    (Cache.get cache key).1 = some value
  get_of_not_mem {cache : σ} {key : κ} (h : key ∉ Cache.keys cache) :
    (Cache.get cache key).1 = none
  /-- To find the value of a key moves its entry to the front. -/
  entries_get_of_mem {cache : σ} {key : κ} {value : ν} (h : (key, value) ∈ Cache.entries cache) :
    Cache.entries (Cache.get cache key).2
      = (key, value) :: (Cache.entries cache).filter (·.1 ≠ key)
  entries_get_of_not_mem {cache : σ} {key : κ} (h : key ∉ Cache.keys cache) :
    Cache.entries (Cache.get cache key).2 = Cache.entries cache
  capacity_get (cache : σ) (key : κ) :
    Cache.capacity (Cache.get cache key).2 = Cache.capacity cache
  /-- While there is room, a new entry is put in front of the others. -/
  entries_put_of_lt {cache : σ} {key : κ} (value : ν) (h : key ∉ Cache.keys cache)
    (hroom : (Cache.entries cache).length < (Cache.capacity cache).val) :
    Cache.entries (Cache.put cache key value) = (key, value) :: Cache.entries cache
  /-- When there is no room any more, the entry that was used least recently falls out. -/
  entries_put_of_le {cache : σ} {key : κ} (value : ν) (h : key ∉ Cache.keys cache)
    (hfull : (Cache.capacity cache).val ≤ (Cache.entries cache).length) :
    Cache.entries (Cache.put cache key value) = (key, value) :: (Cache.entries cache).dropLast
  capacity_put (cache : σ) (key : κ) (value : ν) :
    Cache.capacity (Cache.put cache key value) = Cache.capacity cache
  entries_clear (cache : σ) : Cache.entries (Cache.clear cache) = []
  capacity_clear (cache : σ) : Cache.capacity (Cache.clear cache) = Cache.capacity cache

/-! ### A list as a cache -/

namespace RecencyList

variable {κ ν : Type} [DecidableEq κ] {list : RecencyList κ ν} {key : κ} {value : ν}

theorem get_of_mem (h : (key, value) ∈ list.entries) :
    list.get key = (some value, list.touch key value) := by
  obtain ⟨found, hfound⟩ : ∃ found, list.entries.find? (·.1 = key) = some found := by
    refine Option.isSome_iff_exists.mp (List.find?_isSome.mpr ⟨_, h, ?_⟩)
    exact decide_eq_true rfl
  -- Keys are distinct, so what is found is the entry itself.
  have hkey : found.1 = key := by simpa using List.find?_some hfound
  have hvalue : found = (key, value) :=
    List.inj_on_of_nodup_map list.nodup_keys (List.mem_of_find?_eq_some hfound) h hkey
  rw [get, hfound, hvalue]

theorem get_of_not_mem (h : key ∉ Cache.keys list) : list.get key = (none, list) := by
  have hfind : list.entries.find? (·.1 = key) = none := by
    refine List.find?_eq_none.mpr fun entry hentry hkey => h ?_
    exact List.mem_map.mpr ⟨entry, hentry, by simpa using hkey⟩
  rw [get, hfind]

theorem without_of_not_mem (h : key ∉ Cache.keys list) :
    without list.entries key = list.entries := by
  refine List.filter_eq_self.mpr fun entry hentry => decide_eq_true fun hkey => h ?_
  exact List.mem_map.mpr ⟨entry, hentry, hkey⟩

/-- An entry that is moved to the front leaves its place, so that all entries fit. -/
theorem entries_touch_of_mem (h : (key, value) ∈ list.entries) :
    (list.touch key value).entries = (key, value) :: without list.entries key := by
  have hlt : (without list.entries key).length < list.entries.length :=
    List.length_filter_lt_length_iff_exists.mpr ⟨_, h, by simp⟩
  exact List.take_of_length_le (Nat.le_trans hlt list.length_le)

theorem entries_touch_of_not_mem (h : key ∉ Cache.keys list) :
    (list.touch key value).entries = ((key, value) :: list.entries).take list.capacity.val := by
  show ((key, value) :: without list.entries key).take list.capacity.val = _
  rw [without_of_not_mem h]

instance lawfulCache : LawfulCache (RecencyList κ ν) κ ν where
  entries_create _ := rfl
  capacity_create _ := rfl
  size_eq _ := rfl
  get_of_mem h := congrArg Prod.fst (get_of_mem h)
  get_of_not_mem h := congrArg Prod.fst (get_of_not_mem h)
  entries_get_of_mem h :=
    (congrArg (RecencyList.entries ∘ Prod.snd) (get_of_mem h)).trans (entries_touch_of_mem h)
  entries_get_of_not_mem h := congrArg (RecencyList.entries ∘ Prod.snd) (get_of_not_mem h)
  capacity_get list key := by
    show (list.get key).2.capacity = list.capacity
    unfold get
    split <;> rfl
  entries_put_of_lt value h hroom :=
    (entries_touch_of_not_mem h).trans (List.take_of_length_le hroom)
  entries_put_of_le {list key} value h hfull := by
    -- A full list has exactly as many entries as it has room for, so to take so many is to drop the
    -- last.
    have hlength : list.entries.length = list.capacity.val := Nat.le_antisymm list.length_le hfull
    obtain ⟨n, hn⟩ := Nat.exists_eq_succ_of_ne_zero list.capacity.property
    refine (entries_touch_of_not_mem h).trans ?_
    rw [hn, List.take_succ_cons]
    show _ = _ :: list.entries.dropLast
    rw [List.dropLast_eq_take, hlength, hn]
    rfl
  capacity_put _ _ _ := rfl
  entries_clear _ := rfl
  capacity_clear _ := rfl

end RecencyList

/-! ### The programs remembered -/

namespace CalculatorOver

variable {σ : Type} [Cache σ String Program]

/-- The programs remembered with their texts, the one used last in front. -/
def entries (calculator : CalculatorOver σ) : List (String × Program) :=
  calculator.cache.elim [] Cache.entries

/-- The texts of the programs remembered, the one used last in front. -/
def keys (calculator : CalculatorOver σ) : List String := calculator.entries.map Prod.fst

/-- The number of programs that there is room for. -/
def room (calculator : CalculatorOver σ) : Nat :=
  calculator.cache.elim 0 fun cache => (Cache.capacity cache).val

theorem config_find (calculator : CalculatorOver σ) (text : String) :
    (calculator.find text).2.config = calculator.config := by
  obtain ⟨config, _ | cache⟩ := calculator <;> rfl

variable [LawfulCache σ String Program] {calculator : CalculatorOver σ} {text : String}

theorem entries_ofConfig (config : Config) : (ofConfig config : CalculatorOver σ).entries = [] := by
  unfold ofConfig
  cases Capacity.ofNat? config.cacheCapacity with
  | none => rfl
  | some capacity => exact LawfulCache.entries_create capacity

theorem room_ofConfig (config : Config) :
    (ofConfig config : CalculatorOver σ).room = config.cacheCapacity := by
  unfold ofConfig Capacity.ofNat?
  split
  · next hzero => exact hzero.symm
  · exact congrArg Subtype.val (LawfulCache.capacity_create (σ := σ) _)

theorem entries_clear (calculator : CalculatorOver σ) : calculator.clear.entries = [] := by
  obtain ⟨config, _ | cache⟩ := calculator
  · rfl
  · exact LawfulCache.entries_clear cache

theorem room_clear (calculator : CalculatorOver σ) : calculator.clear.room = calculator.room := by
  obtain ⟨config, _ | cache⟩ := calculator
  · rfl
  · exact congrArg Subtype.val (LawfulCache.capacity_clear cache)

theorem cachedCount_eq (calculator : CalculatorOver σ) :
    calculator.cachedCount = calculator.keys.length := by
  rw [keys, List.length_map]
  obtain ⟨config, _ | cache⟩ := calculator
  · rfl
  · exact LawfulCache.size_eq cache

theorem room_find (calculator : CalculatorOver σ) (text : String) :
    (calculator.find text).2.room = calculator.room := by
  obtain ⟨config, _ | cache⟩ := calculator
  · rfl
  · exact congrArg Subtype.val (LawfulCache.capacity_get cache text)

theorem room_remember (calculator : CalculatorOver σ) (text : String) (program : Program) :
    (calculator.remember text program).room = calculator.room := by
  obtain ⟨config, _ | cache⟩ := calculator
  · rfl
  · exact congrArg Subtype.val (LawfulCache.capacity_put cache text program)

/-- **A look finds the program of a text that is remembered**, which comes to the front, and of
another text it finds nothing and changes nothing. -/
theorem find_cases (calculator : CalculatorOver σ) (text : String) :
    (∃ program, (text, program) ∈ calculator.entries ∧
      (calculator.find text).1 = some program ∧
      (calculator.find text).2.entries
        = (text, program) :: calculator.entries.filter (·.1 ≠ text)) ∨
    text ∉ calculator.keys ∧ (calculator.find text).1 = none ∧
      (calculator.find text).2.entries = calculator.entries := by
  obtain ⟨config, _ | cache⟩ := calculator
  · -- Without a cache nothing was ever remembered.
    exact .inr ⟨List.not_mem_nil, rfl, rfl⟩
  · by_cases hkey : text ∈ Cache.keys cache
    · obtain ⟨⟨text, program⟩, hentry, rfl⟩ := List.mem_map.mp hkey
      exact .inl ⟨program, hentry, LawfulCache.get_of_mem hentry,
        LawfulCache.entries_get_of_mem hentry⟩
    · exact .inr ⟨hkey, LawfulCache.get_of_not_mem hkey, LawfulCache.entries_get_of_not_mem hkey⟩

/-- **A new program comes in front, and what does not fit any more falls out.** -/
theorem entries_remember (hkey : text ∉ calculator.keys)
    (hroom : calculator.entries.length ≤ calculator.room) (program : Program) :
    (calculator.remember text program).entries
      = ((text, program) :: calculator.entries).take calculator.room := by
  obtain ⟨config, _ | cache⟩ := calculator
  · rfl
  · obtain ⟨n, hn⟩ := Nat.exists_eq_succ_of_ne_zero (Cache.capacity cache).property
    have hcapacity : (⟨config, some cache⟩ : CalculatorOver σ).room = n + 1 := hn
    rw [hcapacity, List.take_succ_cons]
    rw [hcapacity] at hroom
    rcases Nat.lt_or_ge (Cache.entries cache).length (n + 1) with hlt | hge
    · refine (LawfulCache.entries_put_of_lt program hkey (hn ▸ hlt)).trans ?_
      exact congrArg _ (List.take_of_length_le (Nat.le_of_lt_succ hlt)).symm
    · -- The cache is full, and of its entries all but one still fit.
      have hlength : (Cache.entries cache).length = n + 1 := Nat.le_antisymm hroom hge
      refine (LawfulCache.entries_put_of_le program hkey (hn ▸ hge)).trans ?_
      rw [List.dropLast_eq_take, hlength]
      rfl

/-- However many programs there are, to remember one brings no other one in. -/
theorem mem_of_mem_remember (hkey : text ∉ calculator.keys) {program : Program}
    {entry : String × Program} (h : entry ∈ (calculator.remember text program).entries) :
    entry = (text, program) ∨ entry ∈ calculator.entries := by
  obtain ⟨config, _ | cache⟩ := calculator
  · exact .inr h
  · replace h : entry ∈ Cache.entries (Cache.put cache text program) := h
    rcases Nat.lt_or_ge (Cache.entries cache).length (Cache.capacity cache).val with hlt | hge
    · rw [LawfulCache.entries_put_of_lt program hkey hlt] at h
      exact List.mem_cons.mp h
    · rw [LawfulCache.entries_put_of_le program hkey hge] at h
      exact (List.mem_cons.mp h).imp_right List.mem_of_mem_dropLast

end CalculatorOver

end Abacus
