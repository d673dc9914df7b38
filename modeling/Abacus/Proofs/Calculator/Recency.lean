import Abacus.Proofs.Calculator.Runs
import Abacus.Proofs.Distinct
import Mathlib

/-!
# What a calculator remembers

Whatever cache it has, a calculator remembers the texts that it was asked for last, as many as it
has room for.  Only texts that can be read count, and only those after the last time it was cleared;
but a text counts again each time it is asked for, whether its program was remembered or not, and
whatever comes of its evaluation.

## Main definitions

* `recent` — each key of a history once, the one that was used last in front.
* `UsedLately` — a key that was used, with fewer than so many other ones after it.
* `Call.use?`, `usesSinceClear` — the texts that count, call by call and for a run.
* `CalculatorOver.Recalls` — the invariant: the texts remembered are the recent ones that fit.

## Main results

* `mem_take_recent_iff` — the keys in front of a history are those that were used lately.
* `CalculatorOver.keys_compile` — a compilation is a use of a text that can be read.
* `CalculatorOver.Recalls.ask`, `CalculatorOver.Recalls.clear` — a call keeps the invariant.
* `cache_holds_most_recent` — **the cache is exactly least-recently-used.**
-/

namespace Abacus

/-! ### Histories -/

section Histories

variable {κ : Type} [DecidableEq κ] {key : κ}

/-- Each key of a history once, the one that was used last in front. -/
def recent (uses : List κ) : List κ := uses.reverse.eraseDups

/-- The key was used, and fewer than `n` other ones were after its last use. -/
def UsedLately (n : Nat) (uses : List κ) (key : κ) : Prop :=
  ∃ before after, uses = before ++ key :: after ∧ key ∉ after ∧ after.toFinset.card < n

theorem length_eraseDups (keys : List κ) : keys.eraseDups.length = keys.toFinset.card := by
  rw [← List.toFinset_card_of_nodup (nodup_eraseDups keys)]
  congr 1
  ext key
  rw [List.mem_toFinset, List.mem_toFinset, List.mem_eraseDups]

theorem nodup_recent (uses : List κ) : (recent uses).Nodup := nodup_eraseDups _

theorem length_recent (uses : List κ) : (recent uses).length = uses.toFinset.card := by
  rw [recent, length_eraseDups, List.toFinset_reverse]

/-- A use brings its key to the front. -/
theorem recent_append_singleton (uses : List κ) (key : κ) :
    recent (uses ++ [key]) = key :: (recent uses).filter (· ≠ key) := by
  rw [recent, List.reverse_append, List.reverse_singleton, List.singleton_append,
    List.eraseDups_cons, eraseDups_filter, recent]
  congr 1
  refine List.filter_congr fun other _ => ?_
  by_cases h : other = key <;> simp [h]

/-- In front of a key are those that were used after it. -/
theorem exists_recent_eq_append {after : List κ} (before : List κ) (h : key ∉ after) :
    ∃ older, recent (before ++ key :: after) = recent after ++ key :: older := by
  have hkey : after.reverse.contains key = false := by simpa using h
  rw [recent, List.reverse_append, List.reverse_cons, List.append_assoc, List.singleton_append,
    List.eraseDups_append, List.cons_removeAll, if_pos hkey, List.eraseDups_cons]
  exact ⟨_, rfl⟩

omit [DecidableEq κ] in
/-- The last use of a key that was used. -/
theorem exists_last_use {uses : List κ} (h : key ∈ uses) :
    ∃ before after, uses = before ++ key :: after ∧ key ∉ after := by
  obtain ⟨later, earlier, hreverse, hlater⟩ := List.eq_append_cons_of_mem (List.mem_reverse.mpr h)
  refine ⟨earlier.reverse, later.reverse, ?_, by simpa using hlater⟩
  rw [← List.reverse_reverse uses, hreverse]
  simp

/-- **The keys in front of a history are those that were used lately.** -/
theorem mem_take_recent_iff {n : Nat} {uses : List κ} :
    key ∈ (recent uses).take n ↔ UsedLately n uses key := by
  constructor
  · intro h
    have hmem : key ∈ uses := List.mem_reverse.mp (List.mem_eraseDups.mp (List.mem_of_mem_take h))
    obtain ⟨before, after, rfl, hafter⟩ := exists_last_use hmem
    obtain ⟨older, hrecent⟩ := exists_recent_eq_append before hafter
    refine ⟨before, after, rfl, hafter, ?_⟩
    rw [← length_recent]
    -- If the keys used later were `n` or more, only such would be in front.
    by_contra hle
    rw [hrecent, List.take_append_of_le_length (Nat.not_lt.mp hle)] at h
    have hlater : key ∈ after.reverse := List.mem_eraseDups.mp (List.mem_of_mem_take h)
    exact hafter (List.mem_reverse.mp hlater)
  · rintro ⟨before, after, rfl, hafter, hcard⟩
    obtain ⟨older, hrecent⟩ := exists_recent_eq_append before hafter
    rw [← length_recent] at hcard
    obtain ⟨m, rfl⟩ := Nat.exists_eq_add_of_lt hcard
    rw [hrecent, Nat.add_assoc, List.take_length_add_append, List.take_succ_cons]
    exact List.mem_append_right _ List.mem_cons_self

/-- What falls out at the end of a list does so as well after one of its keys was taken out. -/
theorem take_filter_take_succ {keys : List κ} (h : keys.Nodup) (key : κ) :
    ∀ n, ((keys.take (n + 1)).filter (· ≠ key)).take n = (keys.filter (· ≠ key)).take n := by
  induction keys with
  | nil => intro n; rfl
  | cons other keys ih =>
    intro n
    obtain ⟨hother, hkeys⟩ := List.nodup_cons.mp h
    by_cases hkey : other = key
    · -- The key is taken out here, and there is no other one.
      subst hkey
      have hall : ∀ more : List κ, more ⊆ keys → more.filter (· ≠ other) = more := by
        intro more hmore
        refine List.filter_eq_self.mpr fun k hk => ?_
        simpa using fun heq : k = other => hother (heq ▸ hmore hk)
      rw [List.take_succ_cons, List.filter_cons_of_neg (by simp), List.filter_cons_of_neg (by simp),
        hall _ (List.take_subset _ _), hall _ (List.Subset.refl _), List.take_take, Nat.min_self]
    · rw [List.take_succ_cons, List.filter_cons_of_pos (by simpa using hkey),
        List.filter_cons_of_pos (by simpa using hkey)]
      cases n with
      | zero => rfl
      | succ n => rw [List.take_succ_cons, List.take_succ_cons, ih hkeys n]

/-- A use of a key changes the recent keys that fit in the same way as all recent keys. -/
theorem take_recent_append_singleton (n : Nat) (uses : List κ) (key : κ) :
    (recent (uses ++ [key])).take n
      = (key :: ((recent uses).take n).filter (· ≠ key)).take n := by
  rw [recent_append_singleton]
  cases n with
  | zero => rfl
  | succ n =>
    rw [List.take_succ_cons, List.take_succ_cons, take_filter_take_succ (nodup_recent uses)]

end Histories

/-! ### Uses -/

/-- The text, if it can be read. -/
def readable? (text : String) : Option String :=
  match Expr.parse text with
  | .ok _ => some text
  | .error _ => none

/-- The text that a call is a use of. -/
def Call.use? : Call → Option String
  | compile text => readable? text
  | calculate text _ => readable? text
  | clear => none

/-- Whether the call empties the cache. -/
def Call.isClear : Call → Bool
  | clear => true
  | _ => false

/-- The texts that were used since the cache was emptied last, in the order of the calls. -/
def usesSinceClear (calls : List Call) : List String :=
  (calls.reverse.takeWhile fun call => !call.isClear).reverse.filterMap Call.use?

theorem usesSinceClear_append_clear (calls : List Call) :
    usesSinceClear (calls ++ [.clear]) = [] := by
  simp [usesSinceClear, Call.isClear]

theorem usesSinceClear_append_singleton (calls : List Call) {call : Call}
    (h : call.isClear = false) :
    usesSinceClear (calls ++ [call]) = usesSinceClear calls ++ call.use?.toList := by
  have hlast : (calls ++ [call]).reverse.takeWhile (fun call => !call.isClear)
      = call :: calls.reverse.takeWhile fun call => !call.isClear := by
    rw [List.reverse_append, List.reverse_singleton, List.singleton_append,
      List.takeWhile_cons_of_pos (by simp [h])]
  rw [usesSinceClear, hlast, List.reverse_cons, List.filterMap_append, usesSinceClear]
  cases hused : call.use? <;> simp [hused]

namespace CalculatorOver

variable {σ : Type} [Cache σ String Program] [LawfulCache σ String Program]
  {calculator : CalculatorOver σ} {uses : List String} {text : String}

/-! ### One compilation -/

/-- A text that cannot be read is never remembered, and asking for it changes nothing. -/
theorem entries_compile_of_error (h : calculator.Sound) {error : Error}
    (hparse : Expr.parse text = .error error) :
    (calculator.compile text).2.entries = calculator.entries := by
  rcases calculator.compile_cases text with ⟨program, hentry, -⟩ |
    ⟨-, ⟨_, _, _, hsame⟩ | ⟨e, _, _, _, hok, -⟩⟩
  · obtain ⟨e, hok, -⟩ := h text program hentry
    exact nomatch hparse.symm.trans hok
  · exact hsame
  · exact nomatch hparse.symm.trans hok

theorem hit_compile : (calculator.compile text).1.hit = true ↔ text ∈ calculator.keys := by
  rcases calculator.compile_cases text with ⟨program, hentry, hresult, -⟩ |
    ⟨hkey, ⟨_, _, hresult, -⟩ | ⟨_, _, _, _, _, _, hresult, -⟩⟩
  · rw [hresult]
    exact iff_of_true rfl (List.mem_map.mpr ⟨_, hentry, rfl⟩)
  · rw [hresult]
    exact iff_of_false Bool.false_ne_true hkey
  · rw [hresult]
    exact iff_of_false Bool.false_ne_true hkey

theorem map_fst_filter (entries : List (String × Program)) (text : String) :
    (entries.filter (·.1 ≠ text)).map Prod.fst = (entries.map Prod.fst).filter (· ≠ text) := by
  rw [List.filter_map]
  rfl

/-- **A text that can be read comes to the front**, whether its program was remembered or not. -/
theorem keys_compile {e : Expr} (hparse : Expr.parse text = .ok e)
    (hroom : calculator.keys.length ≤ calculator.room) :
    (calculator.compile text).2.keys
      = (text :: calculator.keys.filter (· ≠ text)).take calculator.room := by
  rcases calculator.compile_cases text with ⟨program, hentry, -, hfront⟩ |
    ⟨hkey, ⟨_, herror, -⟩ | ⟨_, program, _, looked, _, _, _, hlooked, hsame, hafter⟩⟩
  · -- The text leaves its place, so that nothing falls out.
    have hmem : text ∈ calculator.keys := List.mem_map.mpr ⟨_, hentry, rfl⟩
    have hlt : (calculator.keys.filter (· ≠ text)).length < calculator.keys.length :=
      List.length_filter_lt_length_iff_exists.mpr ⟨text, hmem, by simp⟩
    rw [List.take_of_length_le (Nat.le_trans hlt hroom), keys, hfront, List.map_cons,
      map_fst_filter, keys]
  · cases herror.symm.trans hparse
  · have hall : calculator.keys.filter (· ≠ text) = calculator.keys :=
      List.filter_eq_self.mpr fun other hother => decide_eq_true fun heq => hkey (heq ▸ hother)
    have hkey' : text ∉ looked.keys := by rwa [keys, hlooked]
    have hroom' : looked.entries.length ≤ looked.room := by
      rw [hlooked, hsame, ← List.length_map]
      exact hroom
    rw [hafter, keys, entries_remember hkey' hroom', List.map_take, hlooked, hsame, hall]
    rfl

/-! ### Runs -/

/-- The calculator remembers the texts used last, as many as fit, and each with its own program. -/
structure Recalls (calculator : CalculatorOver σ) (uses : List String) : Prop where
  sound : calculator.Sound
  room_eq : calculator.room = calculator.config.cacheCapacity
  keys_eq : calculator.keys = (recent uses).take calculator.room

omit [LawfulCache σ String Program] in
theorem recalls_of_entries_eq_nil (hentries : calculator.entries = [])
    (hroom : calculator.room = calculator.config.cacheCapacity) : calculator.Recalls [] := by
  refine ⟨sound_of_entries_eq_nil hentries, hroom, ?_⟩
  rw [keys, hentries]
  exact List.take_nil.symm

theorem recalls_ofConfig (config : Config) : (ofConfig config : CalculatorOver σ).Recalls [] :=
  recalls_of_entries_eq_nil (entries_ofConfig config) (room_ofConfig config)

theorem Recalls.clear (h : calculator.Recalls uses) : calculator.clear.Recalls [] :=
  recalls_of_entries_eq_nil (entries_clear calculator) ((room_clear calculator).trans h.room_eq)

/-- Asking for a program is a use of its text, if that can be read. -/
theorem Recalls.ask (h : calculator.Recalls uses) (text : String) :
    (calculator.compile text).2.Recalls (uses ++ (readable? text).toList) := by
  refine ⟨h.sound.compile text, ?_, ?_⟩
  · rw [room_compile, config_compile]
    exact h.room_eq
  · rw [room_compile, readable?]
    cases hparse : Expr.parse text with
    | error error =>
      -- A text that cannot be read is no use and is not remembered.
      rw [keys, entries_compile_of_error h.sound hparse, Option.toList_none, List.append_nil]
      exact h.keys_eq
    | ok e =>
      have hroom : calculator.keys.length ≤ calculator.room := by
        rw [h.keys_eq]
        exact List.length_take_le _ _
      rw [keys_compile hparse hroom, h.keys_eq]
      exact (take_recent_append_singleton _ _ _).symm

/-- **After any run the texts used since the last `clear` are recalled.** -/
theorem recalls_run (config : Config) (calls : List Call) :
    ((ofConfig config : CalculatorOver σ).run calls).Recalls (usesSinceClear calls) := by
  induction calls using List.reverseRecOn with
  | nil => exact recalls_ofConfig config
  | append_singleton calls call ih =>
    have hrun : (ofConfig config : CalculatorOver σ).run (calls ++ [call])
        = (((ofConfig config : CalculatorOver σ).run calls).step call).2 :=
      List.foldl_concat _ _ _ _
    rw [hrun]
    -- A calculation compiles its text first and touches the cache nowhere else.
    cases call with
    | compile text =>
      rw [usesSinceClear_append_singleton calls rfl]
      exact ih.ask text
    | calculate text bindings =>
      rw [usesSinceClear_append_singleton calls rfl]
      exact ih.ask text
    | clear =>
      rw [usesSinceClear_append_clear]
      exact ih.clear

end CalculatorOver

/-- **The cache is exactly least-recently-used.**  After any run it holds the texts used since it
was emptied last, in the order in which they were used last and as many as it has room for.  So a
call finds its text remembered exactly if that was used lately; a text that cannot be read changes
nothing; and without room there is no cache and nothing is ever found. -/
theorem cache_holds_most_recent (σ : Type) [Cache σ String Program] [LawfulCache σ String Program]
    (config : Config) (calls : List Call) :
    let calculator : CalculatorOver σ := (CalculatorOver.ofConfig config).run calls
    let uses := usesSinceClear calls
    calculator.keys = uses.reverse.eraseDups.take config.cacheCapacity ∧
    calculator.cachedCount = min config.cacheCapacity uses.toFinset.card ∧
    (∀ text, (calculator.compile text).1.hit = true ↔
      UsedLately config.cacheCapacity uses text) ∧
    (∀ text bindings, (calculator.calculate text bindings).2.1.hit = true ↔
      UsedLately config.cacheCapacity uses text) ∧
    (∀ text error, Expr.parse text = .error error →
      (calculator.compile text).2.entries = calculator.entries ∧
      ∀ bindings, (calculator.calculate text bindings).2.2.entries = calculator.entries) ∧
    (config.cacheCapacity = 0 → ∀ text, (calculator.compile text).1.hit = false ∧
      ∀ bindings, (calculator.calculate text bindings).2.1.hit = false) := by
  intro calculator uses
  have hrecalls : calculator.Recalls uses := CalculatorOver.recalls_run config calls
  have hconfig : calculator.config = config := CalculatorOver.config_run calls
  have hroom : calculator.room = config.cacheCapacity := hconfig ▸ hrecalls.room_eq
  have hkeys : calculator.keys = (recent uses).take config.cacheCapacity :=
    hroom ▸ hrecalls.keys_eq
  -- A call finds its text exactly if it is one of the keys.
  have hhit : ∀ text, (calculator.compile text).1.hit = true ↔
      UsedLately config.cacheCapacity uses text := by
    intro text
    rw [CalculatorOver.hit_compile, hkeys, mem_take_recent_iff]
  refine ⟨hkeys, ?_, hhit, fun text _ => hhit text, ?_, ?_⟩
  · rw [CalculatorOver.cachedCount_eq, hkeys, List.length_take, length_recent]
  · intro text error hparse
    have hentries := CalculatorOver.entries_compile_of_error hrecalls.sound hparse
    exact ⟨hentries, fun _ => hentries⟩
  · intro hzero text
    have hmiss : (calculator.compile text).1.hit = false := by
      refine Bool.eq_false_iff.mpr fun hfound => ?_
      -- There is no use with fewer than zero others after it.
      obtain ⟨_, _, _, _, hcard⟩ := (hhit text).mp hfound
      omega
    exact ⟨hmiss, fun _ => hmiss⟩

/-- A use of a remembered text and a failing evaluation count, and a text that cannot be read does
not; and a calculator without room remembers nothing. -/
theorem cache_holds_most_recent_of_two :
    let calls : List Call := [.compile "1", .compile "2", .calculate "1" ∅, .compile "(",
      .calculate "x" ∅, .calculate "y)" ∅]
    let calculator : Calculator := (CalculatorOver.ofConfig { cacheCapacity := 2 }).run calls
    let forgetful : Calculator := (CalculatorOver.ofConfig { cacheCapacity := 0 }).run calls
    LawfulCache (RecencyList String Program) String Program ∧
      Expr.parse "(" = .error (.parse (.illegalToken .eof 1)) ∧
      calculator.keys = ["x", "1"] ∧ calculator.cachedCount = 2 ∧
      (calculator.compile "1").1.hit = true ∧ (calculator.compile "2").1.hit = false ∧
      (calculator.compile "(").2.entries = calculator.entries ∧
      (forgetful.compile "x").1.hit = false := by
  intro calls calculator forgetful
  have hparse : Expr.parse "(" = .error (.parse (.illegalToken .eof 1)) := by
    with_unfolding_all rfl
  have huses : usesSinceClear calls = ["1", "2", "1", "x"] := by decide +kernel
  obtain ⟨hkeys, hcount, hhit, -, herror, -⟩ :=
    cache_holds_most_recent (RecencyList String Program) { cacheCapacity := 2 } calls
  obtain ⟨-, -, -, -, -, hnone⟩ :=
    cache_holds_most_recent (RecencyList String Program) { cacheCapacity := 0 } calls
  rw [huses] at hkeys hcount hhit
  refine ⟨inferInstance, hparse, hkeys, hcount, ?_, ?_, (herror "(" _ hparse).1, (hnone rfl "x").1⟩
  · exact (hhit "1").mpr ⟨["1", "2"], ["x"], rfl, by decide, by decide⟩
  · have hkey : "2" ∉ calculator.keys := by
      rw [hkeys]
      decide
    exact Bool.eq_false_iff.mpr fun h => hkey (CalculatorOver.hit_compile.mp h)

end Abacus
