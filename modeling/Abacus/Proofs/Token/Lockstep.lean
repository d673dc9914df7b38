import Abacus.Proofs.Token.Lexing
import Abacus.Proofs.Token.SourceRuns

/-!
# A text and its tokens in step

The lexer of a text and the queue of the tokens of this text answer alike, whatever is asked of them
and in which order.  They tell different places: the queue counts the tokens taken, and the lexer
stands in the text at the token ahead, or behind the last one that was taken.

## Main definitions

* `LooksAhead` — the last look at a source came after the last taking.
* `TokenSource.taken` — the tokens that were taken from a source.
* `InStep` — the lexer and the queue that have come equally far.

## Main results

* `InStep.peek`, `InStep.consume` — a look and a taking are answered alike and keep them in step.
* `inStep_run` — **and so does every run.**
* `lexer_in_step_with_queue` — **what a run of calls on the two tells.**
-/

namespace Abacus

/-! ### Histories -/

/-- Whether a call looks at the next token. -/
def SourceCall.looks : SourceCall → Bool
  | peek | atEnd => true
  | consume | position => false

/-- Among the calls there is a look that came after everything that was taken. -/
def LooksAhead (calls : List SourceCall) : Prop :=
  ∃ before look after, calls = before ++ look :: after ∧ look.looks = true ∧
    SourceCall.consume ∉ after

theorem not_looksAhead_nil : ¬ LooksAhead [] := by
  rintro ⟨before, look, after, hcalls, -⟩
  simp at hcalls

/-- A look is ahead of itself. -/
theorem looksAhead_append_look (calls : List SourceCall) {look : SourceCall}
    (h : look.looks = true) : LooksAhead (calls ++ [look]) :=
  ⟨calls, look, [], rfl, h, by simp⟩

theorem not_looksAhead_append_consume (calls : List SourceCall) :
    ¬ LooksAhead (calls ++ [.consume]) := by
  rintro ⟨before, look, after, hcalls, hlook, hafter⟩
  -- Taking would be the look itself or come after it.
  rcases List.eq_nil_or_concat after with rfl | ⟨after', last, rfl⟩
  · obtain ⟨-, hlast⟩ := List.append_inj' hcalls rfl
    obtain rfl : SourceCall.consume = look := List.singleton_inj.mp hlast
    exact Bool.false_ne_true hlook
  · rw [List.concat_eq_append, ← List.cons_append, ← List.append_assoc] at hcalls
    obtain ⟨-, hlast⟩ := List.append_inj' hcalls rfl
    obtain rfl : SourceCall.consume = last := List.singleton_inj.mp hlast
    simp at hafter

theorem looksAhead_append_position {calls : List SourceCall} :
    LooksAhead (calls ++ [.position]) ↔ LooksAhead calls := by
  constructor
  · rintro ⟨before, look, after, hcalls, hlook, hafter⟩
    -- A position is no look, so the look stands before it.
    rcases List.eq_nil_or_concat after with rfl | ⟨after', last, rfl⟩
    · obtain ⟨-, hlast⟩ := List.append_inj' hcalls rfl
      obtain rfl : SourceCall.position = look := List.singleton_inj.mp hlast
      exact absurd hlook Bool.false_ne_true
    · rw [List.concat_eq_append, ← List.cons_append, ← List.append_assoc] at hcalls
      obtain ⟨rfl, -⟩ := List.append_inj' hcalls rfl
      refine ⟨before, look, after', rfl, hlook, fun h => hafter ?_⟩
      simp [h]
  · rintro ⟨before, look, after, rfl, hlook, hafter⟩
    refine ⟨before, look, after ++ [.position], by simp, hlook, ?_⟩
    simp [hafter]

/-- The token that was taken, if the answer is one. -/
def SourceAnswer.token? : SourceAnswer → Option Token
  | taken token => token
  | shown _ | ended _ | standing _ => none

namespace TokenSource

variable {σ : Type} [TokenSource σ] {source : σ}

/-- The answers to calls that are made one after the other. -/
def answers (source : σ) : List SourceCall → List SourceAnswer
  | [] => []
  | call :: calls => (step source call).1 :: answers (step source call).2 calls

/-- The tokens taken in a run of calls. -/
def taken (source : σ) (calls : List SourceCall) : List Token :=
  (answers source calls).filterMap SourceAnswer.token?

theorem run_append_singleton (calls : List SourceCall) (call : SourceCall) :
    run source (calls ++ [call]) = (step (run source calls) call).2 := by
  simp [run]

theorem answers_append_singleton (calls : List SourceCall) (call : SourceCall) :
    answers source (calls ++ [call])
      = answers source calls ++ [(step (run source calls) call).1] := by
  induction calls generalizing source with
  | nil => rfl
  | cons first calls ih =>
    simp only [List.cons_append, answers]
    rw [ih]
    rfl

/-- Only taking takes a token. -/
theorem taken_append_of_ne (calls : List SourceCall) {call : SourceCall} (h : call ≠ .consume) :
    taken source (calls ++ [call]) = taken source calls := by
  rw [taken, answers_append_singleton, List.filterMap_append]
  have hnone : (step (run source calls) call).1.token? = none := by
    cases call with
    | consume => exact absurd rfl h
    | peek | atEnd | position => rfl
  simp [taken, hnone]

theorem taken_append_consume (calls : List SourceCall) :
    taken source (calls ++ [.consume])
      = taken source calls ++ (consume (run source calls)).1.toList := by
  rw [taken, answers_append_singleton, List.filterMap_append]
  have htoken : (step (run source calls) .consume).1.token? = (consume (run source calls)).1 := rfl
  rw [List.filterMap_cons, htoken]
  cases (consume (run source calls)).1 <;> rfl

end TokenSource

/-! ### Equally far -/

/-- The cursor between the two parts of a text. -/
def Cursor.between (before after : List Char) : Cursor :=
  ⟨before.reverse, after, byteLength before⟩

/-- What the tokens before the end and the end are, as a list that a queue may hold. -/
def queued (pieces : List Piece) : List Token := pieces.map Piece.token ++ [.eof]

/-- `InStep pieces last taken looked lexer queue` says that the lexer of a text with the given
tiling and the queue of its tokens have both given out the tokens `taken`, and that the next token
was looked at if `looked` is true. -/
inductive InStep (pieces : List Piece) (last : List Char) :
    List Token → Bool → Lexer → TokenQueue → Prop
  /-- Behind tokens that were taken; the lexer knows nothing of what is ahead. -/
  | behind {before after : List Piece} (h : pieces = before ++ after) :
      InStep pieces last (before.map Piece.token) false
        ⟨.between (written before) (written after ++ last), none⟩
        ⟨queued after, before.length, false⟩
  /-- At a token that was looked at; the lexer has read it. -/
  | ahead {before after : List Piece} {piece : Piece} (h : pieces = before ++ piece :: after) :
      InStep pieces last (before.map Piece.token) true
        ⟨.between (written (before ++ [piece])) (written after ++ last),
          some ⟨piece.token, byteLength (written before ++ piece.blanks)⟩⟩
        ⟨queued (piece :: after), before.length, true⟩
  /-- At the end, which was looked at and may have been taken before. -/
  | endAhead (ends : Nat) :
      InStep pieces last (pieces.map Piece.token ++ List.replicate ends .eof) true
        ⟨.between (written pieces ++ last) [], some ⟨.eof, byteLength (written pieces ++ last)⟩⟩
        ⟨queued [], pieces.length, true⟩
  /-- Behind the end, which can be looked at and taken again. -/
  | endBehind (ends : Nat) :
      InStep pieces last (pieces.map Piece.token ++ List.replicate (ends + 1) .eof) false
        ⟨.between (written pieces ++ last) [], none⟩ ⟨queued [], pieces.length, false⟩

section Scan

variable {cs last : List Char} {before after : List Piece} {piece : Piece}

/-- The pieces behind others tile what is behind these. -/
theorem Tiles.of_append_pieces (h : Tiles cs (before ++ after) last) :
    Tiles (written after ++ last) after last := by
  induction before generalizing cs with
  | nil =>
    rw [List.nil_append] at h
    exact h.eq_append ▸ h
  | cons first before ih =>
    cases h with
    | cons _ _ h => exact ih h

/-- Between two pieces of a tiling the second one is scanned. -/
theorem scan_between_of_isTiling (h : IsTiling cs (before ++ piece :: after) last) :
    (Cursor.between (written before) (written (piece :: after) ++ last)).scan
      = (.ok ⟨piece.token, byteLength (written before ++ piece.blanks)⟩,
        .between (written (before ++ [piece])) (written after ++ last)) := by
  have htiles := h.tiles.of_append_pieces
  generalize hcs : written (piece :: after) ++ last = cs' at htiles
  cases htiles with
  | @cons blanks lexeme cs'' _ token _ hblanks hlexeme htiles =>
    rw [← htiles.eq_append, Cursor.scan_of_isLexeme hblanks hlexeme rfl]
    simp [Cursor.between, written, Nat.add_assoc]

/-- Behind the last piece the end is scanned. -/
theorem scan_between_of_isBlanks (h : IsBlanks last) (pieces : List Piece) :
    (Cursor.between (written pieces) last).scan
      = (.ok ⟨.eof, byteLength (written pieces ++ last)⟩,
        .between (written pieces ++ last) []) := by
  rw [Cursor.scan_of_blanks h rfl]
  simp [Cursor.between]

end Scan

namespace InStep

variable {cs last : List Char} {pieces : List Piece} {taken : List Token} {looked : Bool}
  {lexer : Lexer} {queue : TokenQueue}

theorem ofString {text : String} (h : IsTiling text.toList pieces last) :
    InStep pieces last [] false (.ofString text) (.ofList (queued pieces)) := by
  have hlexer : Lexer.ofString text = ⟨.between (written []) (written pieces ++ last), none⟩ := by
    rw [← h.tiles.eq_append]
    rfl
  rw [hlexer]
  exact @behind pieces last [] pieces rfl

/-- **A look is answered alike,** and is ahead of both then. -/
theorem peek (htiling : IsTiling cs pieces last) (h : InStep pieces last taken looked lexer queue) :
    lexer.peek.1 = queue.peek.1 ∧ InStep pieces last taken true lexer.peek.2 queue.peek.2 := by
  cases h with
  | @behind before after hpieces =>
    subst hpieces
    cases after with
    | nil =>
      -- Nothing but blanks is left: the lexer goes past them and shows the end, as the queue does.
      have hscan := scan_between_of_isBlanks htiling.blanks before
      simp only [Lexer.peek, written_nil, List.nil_append, hscan]
      refine ⟨rfl, ?_⟩
      have hend := @endAhead (before ++ []) last 0
      simpa [TokenQueue.peek] using hend
    | cons piece after =>
      have hscan := scan_between_of_isTiling htiling
      simp only [Lexer.peek, hscan]
      exact ⟨rfl, .ahead rfl⟩
  | ahead hpieces => exact ⟨rfl, .ahead hpieces⟩
  | endAhead ends => exact ⟨rfl, .endAhead ends⟩
  | endBehind ends =>
    -- The end was taken already: the lexer stands behind the last blank and finds it again.
    have hscan : (Cursor.between (written pieces ++ last) []).scan
        = (.ok ⟨.eof, byteLength (written pieces ++ last)⟩,
          .between (written pieces ++ last) []) := Cursor.scan_of_blanks isBlanks_nil rfl
    simp only [Lexer.peek, hscan]
    exact ⟨rfl, .endAhead (ends + 1)⟩

/-- **Taking is answered alike,** and gives nothing unless there was a look. -/
theorem consume (htiling : IsTiling cs pieces last)
    (h : InStep pieces last taken looked lexer queue) :
    lexer.consume.1 = queue.consume.1 ∧ (lexer.consume.1 = none ↔ looked = false) ∧
      InStep pieces last (taken ++ lexer.consume.1.toList) false lexer.consume.2
        queue.consume.2 := by
  cases h with
  -- Only a token that was looked at is taken, so in two of the cases nothing is.
  | behind hpieces =>
    have hbehind := @behind pieces last _ _ hpieces
    exact ⟨rfl, by simp [Lexer.consume], by simpa [Lexer.consume, TokenQueue.consume] using hbehind⟩
  | @ahead before after piece hpieces =>
    have hnext : piece.token.isEof = false := htiling.tiles.isEof_eq_false piece (by simp [hpieces])
    have hqueue : TokenQueue.consume ⟨queued (piece :: after), before.length, true⟩
        = (some piece.token, ⟨queued after, before.length + 1, false⟩) := by
      simp [TokenQueue.consume, TokenQueue.step, TokenQueue.next, queued, hnext]
    rw [hqueue]
    refine ⟨rfl, by simp [Lexer.consume], ?_⟩
    have hbehind := @behind pieces last (before ++ [piece]) after (by simp [hpieces])
    simpa [Lexer.consume] using hbehind
  | endAhead ends =>
    -- The end stays in the queue, and so does the count of how often it was taken.
    refine ⟨rfl, by simp [Lexer.consume], ?_⟩
    have hbehind := @endBehind pieces last ends
    rw [List.replicate_succ', ← List.append_assoc] at hbehind
    exact hbehind
  | endBehind ends =>
    have hbehind := @endBehind pieces last ends
    exact ⟨rfl, by simp [Lexer.consume], by simpa [Lexer.consume, TokenQueue.consume] using hbehind⟩

/-! ### What they tell -/

/-- The number of tokens taken, the end not counted, is the place of the queue. -/
theorem index_eq (htiling : IsTiling cs pieces last)
    (h : InStep pieces last taken looked lexer queue) :
    queue.index = taken.countP fun token => !token.isEof := by
  -- No piece is an end, so each piece taken counts.
  have hcount : ∀ before : List Piece, (∀ piece ∈ before, piece ∈ pieces) →
      (before.map Piece.token).countP (fun token => !token.isEof) = before.length := by
    intro before hbefore
    rw [List.countP_map, List.countP_eq_length]
    intro piece hpiece
    simp [htiling.tiles.isEof_eq_false piece (hbefore piece hpiece)]
  cases h with
  | behind hpieces =>
    exact (hcount _ fun piece hpiece => hpieces ▸ List.mem_append_left _ hpiece).symm
  | ahead hpieces =>
    exact (hcount _ fun piece hpiece => hpieces ▸ List.mem_append_left _ hpiece).symm
  | endAhead ends =>
    rw [List.countP_append, hcount pieces fun _ h => h]
    simp [List.countP_replicate, Token.isEof]
  | endBehind ends =>
    rw [List.countP_append, hcount pieces fun _ h => h]
    simp [List.countP_replicate, Token.isEof]

/-- The tokens taken are the first of the text, and the end as often as it was taken. -/
theorem exists_isPrefix (h : InStep pieces last taken looked lexer queue) :
    ∃ ends, taken <+: queued pieces ++ List.replicate ends .eof := by
  cases h with
  | @behind before after hpieces => exact ⟨0, queued after, by simp [hpieces, queued]⟩
  | @ahead before after piece hpieces =>
    exact ⟨0, queued (piece :: after), by simp [hpieces, queued]⟩
  | endAhead ends =>
    refine ⟨ends, [.eof], ?_⟩
    simp [queued, ← List.replicate_succ, List.replicate_succ']
  | endBehind ends =>
    refine ⟨ends, [], ?_⟩
    simp [queued, List.replicate_succ]

/-- With a token ahead the lexer stands where it starts. -/
theorem position_of_looked (h : InStep pieces last taken true lexer queue) :
    lexer.position = startOf last pieces queue.index := by
  cases h with
  | @ahead before after piece hpieces =>
    rw [hpieces]
    exact (startOf_append_cons last before piece after).symm
  | endAhead ends => exact (startOf_length last pieces).symm

/-- With no token ahead it stands where the last one taken ends. -/
theorem position_of_not_looked (htiling : IsTiling cs pieces last)
    (h : InStep pieces last taken false lexer queue) :
    (.eof ∉ taken → lexer.position = byteLength (written (pieces.take queue.index))) ∧
      (.eof ∈ taken → lexer.position = byteLength cs) := by
  cases h with
  | @behind before after hpieces =>
    -- The end has not been taken here, so the lexer stands behind the last piece that was.
    have hend : Token.eof ∉ before.map Piece.token := by
      intro hmem
      obtain ⟨piece, hpiece, htoken⟩ := List.mem_map.mp hmem
      have hnext := htiling.tiles.isEof_eq_false piece (by simp [hpieces, hpiece])
      simp [htoken, Token.isEof] at hnext
    refine ⟨fun _ => ?_, fun hmem => absurd hmem hend⟩
    rw [hpieces, List.take_left]
    rfl
  | endBehind ends =>
    refine ⟨fun hend => absurd (by simp) hend, fun _ => ?_⟩
    rw [htiling.tiles.eq_append]
    rfl

end InStep

/-! ### Runs -/

open TokenSource (step run taken position)

section Runs

variable {text : String} {pieces : List Piece} {last : List Char}

/-- **Every run keeps the lexer of a text and the queue of its tokens in step.** -/
theorem inStep_run (h : IsTiling text.toList pieces last) (calls : List SourceCall) :
    ∃ looked, (looked = true ↔ LooksAhead calls) ∧
      InStep pieces last (taken (Lexer.ofString text) calls) looked
        (run (Lexer.ofString text) calls) (run (TokenQueue.ofList (queued pieces)) calls) := by
  -- what is told of a history is told of its last call
  induction calls using List.reverseRecOn with
  | nil => exact ⟨false, by simp [not_looksAhead_nil], .ofString h⟩
  | append_singleton calls call ih =>
    obtain ⟨looked, hlooked, hstep⟩ := ih
    rw [TokenSource.run_append_singleton, TokenSource.run_append_singleton]
    cases call with
    | peek =>
      rw [TokenSource.taken_append_of_ne calls (by nofun)]
      have hlooks : LooksAhead (calls ++ [.peek]) := looksAhead_append_look calls rfl
      exact ⟨true, by simp [hlooks], (hstep.peek h).2⟩
    | atEnd =>
      rw [TokenSource.taken_append_of_ne calls (by nofun)]
      have hlooks : LooksAhead (calls ++ [.atEnd]) := looksAhead_append_look calls rfl
      exact ⟨true, by simp [hlooks], (hstep.peek h).2⟩
    | position =>
      rw [TokenSource.taken_append_of_ne calls (by nofun)]
      exact ⟨looked, hlooked.trans looksAhead_append_position.symm, hstep⟩
    | consume =>
      rw [TokenSource.taken_append_consume]
      exact ⟨false, by simp [not_looksAhead_append_consume], (hstep.consume h).2.2⟩

/-- Sources that are in step answer alike, but for where they stand. -/
theorem InStep.answer_eq {cs : List Char} {looked : Bool} {tokens : List Token} {lexer : Lexer}
    {queue : TokenQueue} (htiling : IsTiling cs pieces last)
    (h : InStep pieces last tokens looked lexer queue) {call : SourceCall}
    (hcall : call ≠ .position) : (step lexer call).1 = (step queue call).1 := by
  cases call with
  | peek => exact congrArg SourceAnswer.shown (h.peek htiling).1
  | consume => exact congrArg SourceAnswer.taken (h.consume htiling).1
  | atEnd =>
    exact congrArg (fun result => SourceAnswer.ended (result.map Token.isEof)) (h.peek htiling).1
  | position => exact absurd rfl hcall

/-- What was taken of the one was taken of the other. -/
theorem taken_queue_eq (h : IsTiling text.toList pieces last) (calls : List SourceCall) :
    taken (TokenQueue.ofList (queued pieces)) calls = taken (Lexer.ofString text) calls := by
  -- The last call decides: only `consume` adds a token, and there both sources answer alike.
  induction calls using List.reverseRecOn with
  | nil => rfl
  | append_singleton calls call ih =>
    obtain ⟨looked, -, hstep⟩ := inStep_run h calls
    cases call with
    | consume =>
      rw [TokenSource.taken_append_consume, TokenSource.taken_append_consume, ih]
      exact congrArg (fun token => _ ++ Option.toList token) (hstep.consume h).1.symm
    | peek | atEnd | position =>
      rw [TokenSource.taken_append_of_ne calls (by nofun),
        TokenSource.taken_append_of_ne calls (by nofun), ih]

end Runs

/-- **A text and its tokens in step.**  Let the same calls be made on the lexer of a text that has
tokens and on the queue of these.  Whatever they were, the next one is answered alike, unless it
asks for the position; taking gives nothing exactly if no look came after the last taking; and the
tokens taken are the first of the text, with any number of ends behind the last.  The queue stands
behind so many tokens as were taken, and the lexer at the start of the one ahead, if it was looked
at, and else at the end of the last one taken. -/
theorem lexer_in_step_with_queue {text : String} {ts : List Token} (h : lex text = .ok ts) :
    ∃ pieces last, IsTiling text.toList pieces last ∧ pieces.map Piece.token ++ [.eof] = ts ∧
      ∀ calls : List SourceCall,
        let lexer := run (Lexer.ofString text) calls
        let queue := run (TokenQueue.ofList ts) calls
        let tokens := taken (Lexer.ofString text) calls
        let number := tokens.countP fun token => !token.isEof
        (∀ call, call ≠ .position → (step lexer call).1 = (step queue call).1) ∧
        ((step lexer .consume).1 = .taken none ↔ ¬ LooksAhead calls) ∧
        taken (TokenQueue.ofList ts) calls = tokens ∧
        (∃ ends, tokens <+: ts ++ List.replicate ends .eof) ∧
        position queue = number ∧
        (LooksAhead calls → position lexer = startOf last pieces number) ∧
        (¬ LooksAhead calls → .eof ∉ tokens →
          position lexer = byteLength (written (pieces.take number))) ∧
        (¬ LooksAhead calls → .eof ∈ tokens → position lexer = byteLength text.toList) := by
  obtain ⟨pieces, last, htiling, rfl⟩ := exists_isTiling_of_lex h
  refine ⟨pieces, last, htiling, rfl, fun calls => ?_⟩
  obtain ⟨looked, hlooked, hstep⟩ := inStep_run htiling calls
  intro lexer queue tokens number
  have hindex : queue.index = number := hstep.index_eq htiling
  refine ⟨fun call hcall => hstep.answer_eq htiling hcall, ?_, taken_queue_eq htiling calls,
    hstep.exists_isPrefix, hindex, ?_⟩
  · rw [← hlooked, Bool.not_eq_true, ← (hstep.consume htiling).2.1]
    exact SourceAnswer.taken.injEq _ _ ▸ Iff.rfl
  · rw [← hlooked, ← hindex]
    -- A look moves the lexer in front of the next token; without one it stands behind the last.
    cases looked with
    | true => exact ⟨fun _ => hstep.position_of_looked, by simp, by simp⟩
    | false =>
      obtain ⟨htaken, hend⟩ := hstep.position_of_not_looked htiling
      exact ⟨by simp, fun _ => htaken, fun _ => hend⟩

/-- Behind the end the queue stands at the end that it has in its list, and the lexer behind the
blank of three bytes with which the text ends; and nothing can be taken without another look. -/
theorem lexer_in_step_with_queue_behind_end :
    let calls : List SourceCall := [.peek, .consume, .atEnd, .consume]
    lex "x\u3000" = .ok [.identifier "x", .eof] ∧
      (step (run (Lexer.ofString "x\u3000") calls) .consume).1 = .taken none ∧
      position (run (TokenQueue.ofList [.identifier "x", .eof]) calls) = 1 ∧
      position (run (Lexer.ofString "x\u3000") calls) = 4 := by
  intro calls
  have hlex : lex "x\u3000" = .ok [.identifier "x", .eof] := by with_unfolding_all rfl
  have htaken : taken (Lexer.ofString "x\u3000") calls = [.identifier "x", .eof] := by
    with_unfolding_all rfl
  have hlooks : ¬ LooksAhead calls := not_looksAhead_append_consume [.peek, .consume, .atEnd]
  obtain ⟨pieces, last, -, -, hcalls⟩ := lexer_in_step_with_queue hlex
  obtain ⟨-, hnone, -, -, hqueue, -, -, hend⟩ := hcalls calls
  rw [htaken] at hqueue hend
  exact ⟨hlex, hnone.mpr hlooks, hqueue, hend hlooks (by simp)⟩

end Abacus
