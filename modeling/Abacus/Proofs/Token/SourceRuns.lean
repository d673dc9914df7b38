import Abacus.Proofs.Token.Scanning
import Abacus.Token.Source

/-!
# Runs of a source

A source may be looked at, taken from and asked for its place in any order.  Whatever was done, and
whether or not a fault was met, a lexer stands at a place of its text, and what is to come is what
comes from this place on; and so does a queue with its list.  What was skipped or read of a fault is
behind, and what was looked at is ahead again.

## Main definitions

* `SourceCall`, `SourceAnswer` — what is asked of a source and what it answers.
* `TokenSource.step`, `TokenSource.run` — one call, and one after the other.
* `Cursor.IsIn`, `Lexer.IsIn`, `TokenQueue.IsIn` — where a cursor and a source stand.

## Main results

* `Lexer.IsIn.step`, `TokenQueue.IsIn.step` — one call keeps a source in its text or its list.
* `Lexer.isIn_run`, `TokenQueue.isIn_run` — **and so does every run.**
* `Lexer.IsIn.exists_append` — the place of a lexer divides its text.
-/

namespace Abacus

/-- What is asked of a source. -/
inductive SourceCall
  | peek
  | consume
  | atEnd
  | position

/-- What a source answers. -/
inductive SourceAnswer
  | shown (result : Except LexError Token)
  | taken (token : Option Token)
  | ended (result : Except LexError Bool)
  | standing (position : Nat)

namespace TokenSource

variable {σ : Type} [TokenSource σ]

/-- The answer to a call, and the source for the next one. -/
def step (source : σ) : SourceCall → SourceAnswer × σ
  | .peek =>
    let (result, source) := peek source
    (.shown result, source)
  | .consume =>
    let (token, source) := consume source
    (.taken token, source)
  | .atEnd =>
    let (result, source) := atEnd source
    (.ended result, source)
  | .position => (.standing (position source), source)

/-- The source that is left when calls are made one after the other. -/
def run (source : σ) (calls : List SourceCall) : σ :=
  calls.foldl (fun source call => (step source call).2) source

/-- What looking and taking keep is kept by every call. -/
theorem step_induction {P : σ → Prop} (hpeek : ∀ {source}, P source → P (peek source).2)
    (hconsume : ∀ {source}, P source → P (consume source).2) {source : σ} (h : P source)
    (call : SourceCall) : P (step source call).2 := by
  cases call with
  | peek => exact hpeek h
  | consume => exact hconsume h
  | atEnd => exact hpeek h
  | position => exact h

/-- What every call keeps is kept by every run. -/
theorem run_induction {P : σ → Prop} (hstep : ∀ {source}, P source → ∀ call, P (step source call).2)
    {source : σ} (h : P source) (calls : List SourceCall) : P (run source calls) := by
  induction calls generalizing source with
  | nil => exact h
  | cons call calls ih => exact ih (hstep h call)

end TokenSource

/-! ### Places in a text -/

variable {cs : List Char}

/-- The cursor stands in the given characters, behind so many bytes as it says. -/
structure Cursor.IsIn (cs : List Char) (cursor : Cursor) : Prop where
  source_eq : cursor.source = cs
  offset_eq : cursor.offset = byteLength cursor.behind

namespace Cursor

variable {cursor : Cursor}

theorem isIn_ofList (cs : List Char) : (ofList cs).IsIn cs := ⟨rfl, rfl⟩

/-- What a cursor passes, it leaves behind. -/
theorem IsIn.of_reads {read : List Char} {after : Cursor} (h : cursor.IsIn cs)
    (hread : cursor.Reads read after) : after.IsIn cs := by
  refine ⟨hread.source_eq.trans h.source_eq, ?_⟩
  rw [hread.offset_eq, hread.behind_eq, h.offset_eq, byteLength_append, byteLength_reverse,
    Nat.add_comm]

theorem IsIn.skipWhile (h : cursor.IsIn cs) (p : Char → Bool) : (cursor.skipWhile p).IsIn cs :=
  h.of_reads (cursor.reads_skipWhile p)

theorem IsIn.step (h : cursor.IsIn cs) : cursor.step.IsIn cs := h.of_reads cursor.reads_step

theorem IsIn.scanToken (h : cursor.IsIn cs) (c : Char) : (cursor.scanToken c).2.IsIn cs := by
  unfold Cursor.scanToken
  split
  · exact h.skipWhile _
  · split
    · exact h.skipWhile _
    · split
      · exact h.step
      · exact h

/-- Whatever comes of a scan, it ends in the text. -/
theorem IsIn.scanHere (h : cursor.IsIn cs) : cursor.scanHere.2.IsIn cs := by
  unfold Cursor.scanHere
  split
  · exact h
  · exact h.scanToken _

theorem IsIn.scan (h : cursor.IsIn cs) : cursor.scan.2.IsIn cs := (h.skipWhile isBlank).scanHere

/-- A token stands where its scan began. -/
theorem position_of_scanHere {next : Located} {after : Cursor}
    (h : cursor.scanHere = (.ok next, after)) : next.position = cursor.offset := by
  unfold scanHere at h
  split at h
  · cases h; rfl
  · obtain ⟨hnext, -⟩ := Prod.mk.inj h
    cases hresult : (cursor.scanToken _).1 with
    | error error => rw [hresult] at hnext; exact nomatch hnext
    | ok token => rw [hresult] at hnext; cases hnext; rfl

/-- Behind a run that is as long as it can be there is none. -/
theorem skipWhile_skipWhile (p : Char → Bool) (cursor : Cursor) :
    (cursor.skipWhile p).skipWhile p = cursor.skipWhile p := by
  obtain ⟨run, rest, hahead, hrun, hrest⟩ := exists_run p cursor.ahead
  have hnone : ∀ c ∈ ([] : List Char), p c = true := fun _ h => nomatch h
  rw [skipWhile_of_stopsRun hahead hrun hrest]
  exact skipWhile_of_stopsRun rfl hnone hrest

/-- The place of a cursor divides the text, and what is to come is what comes from there on. -/
theorem IsIn.exists_append (h : cursor.IsIn cs) :
    ∃ before after, cs = before ++ after ∧ byteLength before = cursor.offset ∧
      cursor.input = inputAt cursor.offset after := by
  refine ⟨cursor.behind.reverse, cursor.ahead, h.source_eq.symm, ?_, cursor.input_eq_inputAt⟩
  rw [byteLength_reverse, h.offset_eq]

end Cursor

/-- The lexer stands in the given characters: at its cursor, or at the beginning of the token that
was looked at, which a scan read from there. -/
structure Lexer.IsIn (cs : List Char) (lexer : Lexer) : Prop where
  cursor : lexer.cursor.IsIn cs
  lookahead : ∀ next, lexer.lookahead = some next →
    ∃ start : Cursor, start.IsIn cs ∧ start.scan = (.ok next, lexer.cursor) ∧
      next.position = start.offset

namespace Lexer

variable {lexer : Lexer}

/-- A lexer that has no token ahead stands at its cursor. -/
theorem isIn_of_cursor {cursor : Cursor} (h : cursor.IsIn cs) : IsIn cs ⟨cursor, none⟩ :=
  ⟨h, fun _ h => nomatch h⟩

theorem isIn_ofString (text : String) : (ofString text).IsIn text.toList :=
  isIn_of_cursor (Cursor.isIn_ofList _)

theorem IsIn.peek (h : lexer.IsIn cs) : lexer.peek.2.IsIn cs := by
  obtain ⟨cursor, _ | next⟩ := lexer
  · have hafter := h.cursor.scan
    cases hscan : cursor.scan with
    | mk result after =>
      rw [hscan] at hafter
      simp only [Lexer.peek, hscan]
      cases result with
      | error error => exact isIn_of_cursor hafter
      | ok next =>
        -- Looking skipped the blanks, and the token begins behind them.
        refine ⟨hafter, fun next' h' => ⟨cursor.skipWhile isBlank, h.cursor.skipWhile isBlank, ?_⟩⟩
        obtain rfl : next = next' := Option.some.inj h'
        refine ⟨?_, Cursor.position_of_scanHere hscan⟩
        rw [Cursor.scan, Cursor.skipWhile_skipWhile]
        exact hscan
  · exact h

theorem IsIn.consume (h : lexer.IsIn cs) : lexer.consume.2.IsIn cs := isIn_of_cursor h.cursor

/-- **A call keeps a lexer in its text.** -/
theorem IsIn.step (h : lexer.IsIn cs) (call : SourceCall) :
    (TokenSource.step lexer call).2.IsIn cs :=
  TokenSource.step_induction IsIn.peek IsIn.consume h call

/-- **A run leaves a lexer in its text.** -/
theorem isIn_run (text : String) (calls : List SourceCall) :
    (TokenSource.run (ofString text) calls).IsIn text.toList :=
  TokenSource.run_induction IsIn.step (isIn_ofString text) calls

/-- **The position of a lexer divides its text,** and what is to come is what comes from there
on. -/
theorem IsIn.exists_append (h : lexer.IsIn cs) :
    ∃ before after, cs = before ++ after ∧ byteLength before = lexer.position ∧
      lexer.input = inputAt lexer.position after := by
  obtain ⟨cursor, _ | next⟩ := lexer
  · exact h.cursor.exists_append
  · obtain ⟨start, hstart, hscan, hposition⟩ := h.lookahead next rfl
    obtain ⟨before, after, hcs, hbefore, hinput⟩ := hstart.exists_append
    rw [← hposition] at hbefore hinput
    exact ⟨before, after, hcs, hbefore, (Cursor.input_of_scan_ok hscan).symm.trans hinput⟩

end Lexer

/-! ### Places in a list -/

/-- The queue stands in the given list, behind so many tokens as it says. -/
structure TokenQueue.IsIn (ts : List Token) (queue : TokenQueue) : Prop where
  rest_eq : queue.rest = ts.drop queue.index
  index_le : queue.index ≤ ts.length

namespace TokenQueue

variable {ts : List Token} {queue : TokenQueue}

theorem isIn_ofList (ts : List Token) : (ofList ts).IsIn ts := ⟨rfl, Nat.zero_le _⟩

theorem IsIn.peek (h : queue.IsIn ts) : queue.peek.2.IsIn ts := ⟨h.rest_eq, h.index_le⟩

theorem IsIn.consume (h : queue.IsIn ts) : queue.consume.2.IsIn ts := by
  unfold TokenQueue.consume
  split
  · unfold TokenQueue.step
    split
    · exact ⟨h.rest_eq, h.index_le⟩
    · next hnext =>
      refine ⟨?_, ?_⟩
      · rw [h.rest_eq, List.tail_drop]
      · -- The end is all that comes behind the last token.
        refine Nat.lt_of_le_of_ne h.index_le fun hlast => hnext ?_
        rw [next, h.rest_eq, hlast, List.drop_length]
        rfl
  · exact h

/-- **A call keeps a queue in its list.** -/
theorem IsIn.step (h : queue.IsIn ts) (call : SourceCall) :
    (TokenSource.step queue call).2.IsIn ts :=
  TokenSource.step_induction IsIn.peek IsIn.consume h call

/-- **A run leaves a queue in its list.** -/
theorem isIn_run (ts : List Token) (calls : List SourceCall) :
    (TokenSource.run (ofList ts) calls).IsIn ts :=
  TokenSource.run_induction IsIn.step (isIn_ofList ts) calls

end TokenQueue

end Abacus
