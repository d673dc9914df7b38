import Abacus.Proofs.Text.CursorRuns
import Abacus.Token.Scan
import Mathlib

/-!
# Scanning

What a text still has to give depends on the characters ahead and on their place, not on what is
behind.  It is then determined by the first character that is no blank: nothing, a run that has to
be a number, a name, a symbol, or a fault.

## Main definitions

* `Cursor.SamePlace` — cursors with the same characters ahead at the same offset.
* `inputAt` — the tokens of given characters at a given offset.
* `Input.prepend` — tokens with others in front of them.
* `IsLexeme`, `IsFault` — what a token is written with, and what is none.

## Main results

* `Cursor.SamePlace.input_eq`, `Cursor.input_eq_inputAt` — **what is behind does not matter**.
* `Cursor.scan_of_isLexeme`, `Cursor.scan_of_isFault`, `Cursor.scan_of_blanks` — one scan.
* `inputAt_of_isLexeme`, `inputAt_of_isFault`, `inputAt_of_blanks` — **the first token of a text**,
  or that there is none.
* `inputAt_blank`, `inputAt_malformed`, `inputAt_symbol` — the same, by the first character.
-/

namespace Abacus

namespace Cursor

/-! ### What is behind does not matter -/

/-- The same characters ahead at the same offset. -/
structure SamePlace (cursor cursor' : Cursor) : Prop where
  ahead_eq : cursor.ahead = cursor'.ahead
  offset_eq : cursor.offset = cursor'.offset

section SamePlace

variable {cursor cursor' : Cursor}

theorem SamePlace.skipWhile (h : cursor.SamePlace cursor') (p : Char → Bool) :
    (cursor.skipWhile p).SamePlace (cursor'.skipWhile p) := by
  refine ⟨?_, ?_⟩
  · simp only [Cursor.skipWhile, h.ahead_eq]
  · simp only [Cursor.skipWhile, h.ahead_eq, h.offset_eq]

theorem SamePlace.step (h : cursor.SamePlace cursor') : cursor.step.SamePlace cursor'.step := by
  obtain ⟨behind, ahead, offset⟩ := cursor
  obtain ⟨behind', ahead', offset'⟩ := cursor'
  obtain ⟨rfl, rfl⟩ : ahead = ahead' ∧ offset = offset' := ⟨h.ahead_eq, h.offset_eq⟩
  cases ahead with
  | nil => exact ⟨rfl, rfl⟩
  | cons c cs => exact ⟨rfl, rfl⟩

theorem SamePlace.scanToken (h : cursor.SamePlace cursor') (c : Char) :
    (cursor.scanToken c).1 = (cursor'.scanToken c).1 ∧
      (cursor.scanToken c).2.SamePlace (cursor'.scanToken c).2 := by
  unfold Cursor.scanToken
  dsimp only
  -- A token is read back from its own beginning on, so nothing of what is behind is in it.
  rw [readWhile_offset, readWhile_offset, readWhile_offset, readWhile_offset, h.ahead_eq,
    h.offset_eq]
  split
  · exact ⟨rfl, h.skipWhile _⟩
  · split
    · exact ⟨rfl, h.skipWhile _⟩
    · split
      · exact ⟨rfl, h.step⟩
      · exact ⟨rfl, h⟩

theorem SamePlace.scanHere (h : cursor.SamePlace cursor') :
    cursor.scanHere.1 = cursor'.scanHere.1 ∧ cursor.scanHere.2.SamePlace cursor'.scanHere.2 := by
  have hpeek : cursor.peek = cursor'.peek := congrArg List.head? h.ahead_eq
  unfold Cursor.scanHere
  rw [hpeek, h.offset_eq]
  split
  · exact ⟨rfl, h⟩
  · next c _ =>
    obtain ⟨htoken, hafter⟩ := h.scanToken c
    refine ⟨?_, hafter⟩
    dsimp only
    rw [htoken]

theorem SamePlace.scan (h : cursor.SamePlace cursor') :
    cursor.scan.1 = cursor'.scan.1 ∧ cursor.scan.2.SamePlace cursor'.scan.2 :=
  (h.skipWhile isBlank).scanHere

/-- **The tokens to come depend on the place only.** -/
theorem SamePlace.input_eq (h : cursor.SamePlace cursor') : cursor.input = cursor'.input := by
  -- Every token takes a character of those ahead.
  induction hn : cursor.ahead.length using Nat.strongRecOn generalizing cursor cursor' with
  | ind n ih =>
    obtain ⟨hresult, hafter⟩ := h.scan
    cases hscan : cursor.scan with
    | mk result after =>
      cases hscan' : cursor'.scan with
      | mk result' after' =>
        rw [hscan, hscan'] at hresult hafter
        obtain rfl : result = result' := hresult
        cases result with
        | error error => rw [input_of_scan_error hscan, input_of_scan_error hscan']
        | ok next =>
          rw [input_of_scan_ok hscan, input_of_scan_ok hscan']
          unfold Input.ofNext
          split
          · rfl
          · next hnext =>
            have hlt := length_ahead_scan_lt hscan (Bool.eq_false_iff.mpr hnext)
            rw [ih _ (hn ▸ hlt) hafter rfl]

end SamePlace

theorem input_eq_of_scan_eq {cursor cursor' : Cursor} (h : cursor.scan = cursor'.scan) :
    cursor.input = cursor'.input := by
  cases hscan : cursor.scan with
  | mk result after =>
    cases result with
    | error error =>
      rw [input_of_scan_error hscan, input_of_scan_error (h.symm.trans hscan)]
    | ok next => rw [input_of_scan_ok hscan, input_of_scan_ok (h.symm.trans hscan)]

end Cursor

/-- The tokens of the given characters, the first of which stands at the given offset. -/
def inputAt (offset : Nat) (cs : List Char) : Input := (⟨[], cs, offset⟩ : Cursor).input

theorem Cursor.input_eq_inputAt (cursor : Cursor) :
    cursor.input = inputAt cursor.offset cursor.ahead :=
  SamePlace.input_eq ⟨rfl, rfl⟩

/-- The same tokens with others in front. -/
def Input.prepend (lts : List Located) (input : Input) : Input :=
  { input with tokens := lts ++ input.tokens }

/-! ### The first character -/

section FirstCharacter

variable {c : Char}

theorem isBlank_of_graphic (h : 0x21 ≤ c.toNat ∧ c.toNat ≤ 0x7E) : isBlank c = false := by
  simp [isBlank, blankRanges]
  omega

theorem isBlank_of_isDigit (h : c.isDigit = true) : isBlank c = false := by
  refine isBlank_of_graphic ?_
  simp [Char.isDigit, UInt32.le_iff_toNat_le] at h
  have hval : c.val.toNat = c.toNat := rfl
  omega

theorem isBlank_of_startsName (h : startsName c = true) : isBlank c = false := by
  refine isBlank_of_graphic ?_
  have hval : c.val.toNat = c.toNat := rfl
  simp [startsName, Char.isAlpha, Char.isUpper, Char.isLower, UInt32.le_iff_toNat_le] at h
  rcases h with (h | h) | rfl
  · omega
  · omega
  · decide

theorem isBlank_of_ofSymbol? {token : Token} (h : Token.ofSymbol? c = some token) :
    isBlank c = false := by
  unfold Token.ofSymbol? at h
  split at h
  all_goals first | rfl | exact nomatch h

theorem isDigit_of_startsName (h : startsName c = true) : ¬ c.isDigit = true := by
  have hval : c.val.toNat = c.toNat := rfl
  simp [startsName, Char.isAlpha, Char.isUpper, Char.isLower, Char.isDigit,
    UInt32.le_iff_toNat_le] at h ⊢
  rcases h with (h | h) | rfl
  · omega
  · omega
  · decide

theorem isDigit_of_ofSymbol? {token : Token} (h : Token.ofSymbol? c = some token) :
    ¬ c.isDigit = true := by
  unfold Token.ofSymbol? at h
  split at h
  all_goals first | decide | exact nomatch h

theorem startsName_of_ofSymbol? {token : Token} (h : Token.ofSymbol? c = some token) :
    ¬ startsName c = true := by
  unfold Token.ofSymbol? at h
  split at h
  all_goals first | decide | exact nomatch h

end FirstCharacter

/-! ### Lexemes -/

/-- There is nothing but blanks. -/
def IsBlanks (cs : List Char) : Prop := ∀ c ∈ cs, isBlank c = true

theorem isBlanks_nil : IsBlanks [] := fun _ h => nomatch h

/-- `IsLexeme rest lexeme token` says that in front of `rest` the token is written as `lexeme`: a
run of characters as long as it can be, or a single character. -/
inductive IsLexeme (rest : List Char) : List Char → Token → Prop
  | number {c : Char} {run : List Char} {value : Number} (hc : c.isDigit = true)
      (hrun : ∀ d ∈ c :: run, isNumberPart d = true) (hrest : StopsRun isNumberPart rest)
      (hvalue : Number.ofLiteralChars? (c :: run) = some value) :
      IsLexeme rest (c :: run) (.number value)
  | name {c : Char} {run : List Char} (hc : startsName c = true)
      (hrun : ∀ d ∈ c :: run, isNamePart d = true) (hrest : StopsRun isNamePart rest) :
      IsLexeme rest (c :: run) (.identifier (String.ofList (c :: run)))
  | symbol {c : Char} {token : Token} (h : Token.ofSymbol? c = some token) :
      IsLexeme rest [c] token

/-- `IsFault cs fault` says that the characters begin with what is no token, and that `fault` is the
complaint of it at a given place. -/
inductive IsFault : List Char → (Nat → LexError) → Prop
  | malformed {c : Char} {run rest : List Char} (hc : c.isDigit = true)
      (hrun : ∀ d ∈ c :: run, isNumberPart d = true) (hrest : StopsRun isNumberPart rest)
      (hvalue : Number.ofLiteralChars? (c :: run) = none) :
      IsFault (c :: run ++ rest) (.malformedNumber (String.ofList (c :: run)))
  | unexpected {c : Char} {rest : List Char} (hblank : isBlank c = false)
      (hdigit : c.isDigit = false) (hname : startsName c = false)
      (hsymbol : Token.ofSymbol? c = none) : IsFault (c :: rest) (.unexpectedInput c)

section Lexemes

variable {rest lexeme blanks cs : List Char} {token : Token} {fault : Nat → LexError}

/-- A lexeme is not empty and does not begin with a blank. -/
theorem IsLexeme.exists_cons (h : IsLexeme rest lexeme token) :
    ∃ c run, lexeme = c :: run ∧ isBlank c = false := by
  cases h with
  | number hc => exact ⟨_, _, rfl, isBlank_of_isDigit hc⟩
  | name hc => exact ⟨_, _, rfl, isBlank_of_startsName hc⟩
  | symbol h => exact ⟨_, _, rfl, isBlank_of_ofSymbol? h⟩

/-- A lexeme remains one if the text is cut off farther behind. -/
theorem IsLexeme.of_append {more : List Char} (h : IsLexeme (rest ++ more) lexeme token) :
    IsLexeme rest lexeme token := by
  cases h with
  | number hc hrun hrest hvalue => exact .number hc hrun hrest.of_append hvalue
  | name hc hrun hrest => exact .name hc hrun hrest.of_append
  | symbol h => exact .symbol h

theorem IsFault.exists_cons (h : IsFault cs fault) :
    ∃ c run, cs = c :: run ∧ isBlank c = false := by
  cases h with
  | malformed hc => exact ⟨_, _, rfl, isBlank_of_isDigit hc⟩
  | unexpected hblank => exact ⟨_, _, rfl, hblank⟩

theorem IsLexeme.isEof_eq_false (h : IsLexeme rest lexeme token) : token.isEof = false := by
  cases h with
  | number => rfl
  | name => rfl
  | symbol h => exact Token.isEof_of_ofSymbol? h

theorem IsLexeme.stopsRun (h : IsLexeme rest lexeme token) :
    StopsRun isBlank (lexeme ++ rest) := by
  obtain ⟨c, run, rfl, hc⟩ := h.exists_cons
  exact stopsRun_cons hc

theorem IsFault.stopsRun (h : IsFault cs fault) : StopsRun isBlank cs := by
  obtain ⟨c, run, rfl, hc⟩ := h.exists_cons
  exact stopsRun_cons hc

theorem Token.ofNumberText_ofList (run : List Char) (position : Nat) :
    ofNumberText (String.ofList run) position
      = match Number.ofLiteralChars? run with
        | some value => .ok (.number value)
        | none => .error (.malformedNumber (String.ofList run) position) := by
  have hliteral : Number.ofLiteral? (String.ofList run) = Number.ofLiteralChars? run :=
    congrArg Number.ofLiteralChars? String.toList_ofList
  cases hvalue : Number.ofLiteralChars? run with
  | some value => simp only [ofNumberText, hliteral, hvalue]
  | none => simp only [ofNumberText, hliteral, hvalue]

namespace Cursor

variable {cursor : Cursor} {run : List Char} {p : Char → Bool}

theorem skipWhile_of_stopsRun (hahead : cursor.ahead = run ++ rest) (hrun : ∀ d ∈ run, p d = true)
    (hrest : StopsRun p rest) :
    cursor.skipWhile p = ⟨run.reverse ++ cursor.behind, rest, cursor.offset + byteLength run⟩ := by
  rw [skipWhile, hahead, takeWhile_append_of_stopsRun hrun hrest,
    dropWhile_append_of_stopsRun hrun hrest]

theorem readWhile_of_stopsRun (hahead : cursor.ahead = run ++ rest) (hrun : ∀ d ∈ run, p d = true)
    (hrest : StopsRun p rest) :
    cursor.readWhile cursor.offset p = (String.ofList run,
      ⟨run.reverse ++ cursor.behind, rest, cursor.offset + byteLength run⟩) := by
  rw [readWhile_offset, skipWhile_of_stopsRun hahead hrun hrest, hahead,
    takeWhile_append_of_stopsRun hrun hrest]

/-- A lexeme is scanned as its token. -/
theorem scanHere_of_isLexeme (h : IsLexeme rest lexeme token)
    (hahead : cursor.ahead = lexeme ++ rest) :
    cursor.scanHere = (.ok ⟨token, cursor.offset⟩,
      ⟨lexeme.reverse ++ cursor.behind, rest, cursor.offset + byteLength lexeme⟩) := by
  unfold scanHere
  -- The scanner asks for a digit, then for a letter, then for a symbol; what begins the one begins
  -- none of the others.
  cases h with
  | number hc hrun hrest hvalue =>
    simp only [peek, hahead, List.cons_append, List.head?_cons]
    rw [scanToken, if_pos hc]
    simp only [readWhile_of_stopsRun hahead hrun hrest, Token.ofNumberText_ofList, hvalue,
      Except.map]
  | name hc hrun hrest =>
    simp only [peek, hahead, List.cons_append, List.head?_cons]
    rw [scanToken, if_neg (isDigit_of_startsName hc), if_pos hc]
    simp only [readWhile_of_stopsRun hahead hrun hrest, Except.map]
  | symbol hsymbol =>
    simp only [peek, hahead, List.cons_append, List.head?_cons]
    rw [scanToken, if_neg (isDigit_of_ofSymbol? hsymbol), if_neg (startsName_of_ofSymbol? hsymbol),
      hsymbol]
    simp [step, hahead, Except.map]

/-- Of a fault the place is kept. -/
theorem scanHere_of_isFault (h : IsFault cs fault) (hahead : cursor.ahead = cs) :
    cursor.scanHere.1 = .error (fault cursor.offset) := by
  unfold scanHere
  cases h with
  | malformed hc hrun hrest hvalue =>
    simp only [peek, hahead, List.cons_append, List.head?_cons]
    rw [scanToken, if_pos hc]
    simp only [readWhile_of_stopsRun hahead hrun hrest, Token.ofNumberText_ofList, hvalue,
      Except.map]
  | unexpected hblank hdigit hname hsymbol =>
    simp only [peek, hahead, List.head?_cons]
    rw [scanToken, if_neg (by simp [hdigit]), if_neg (by simp [hname]), hsymbol]
    rfl

/-- Blanks are passed over, and the lexeme behind them is scanned as its token. -/
theorem scan_of_isLexeme (hblanks : IsBlanks blanks) (h : IsLexeme rest lexeme token)
    (hahead : cursor.ahead = blanks ++ (lexeme ++ rest)) :
    cursor.scan = (.ok ⟨token, cursor.offset + byteLength blanks⟩,
      ⟨lexeme.reverse ++ (blanks.reverse ++ cursor.behind), rest,
        cursor.offset + byteLength blanks + byteLength lexeme⟩) := by
  rw [scan, skipWhile_of_stopsRun hahead hblanks h.stopsRun]
  exact scanHere_of_isLexeme h rfl

theorem scan_of_isFault (hblanks : IsBlanks blanks) (h : IsFault cs fault)
    (hahead : cursor.ahead = blanks ++ cs) :
    cursor.scan.1 = .error (fault (cursor.offset + byteLength blanks)) := by
  rw [scan, skipWhile_of_stopsRun hahead hblanks h.stopsRun]
  exact scanHere_of_isFault h rfl

/-- Behind the last blanks is the end. -/
theorem scan_of_blanks (hblanks : IsBlanks blanks) (hahead : cursor.ahead = blanks) :
    cursor.scan = (.ok ⟨.eof, cursor.offset + byteLength blanks⟩,
      ⟨blanks.reverse ++ cursor.behind, [], cursor.offset + byteLength blanks⟩) := by
  rw [← List.append_nil blanks] at hahead
  rw [scan, skipWhile_of_stopsRun hahead hblanks (stopsRun_nil _)]
  rfl

end Cursor

/-! ### The first token -/

variable (offset : Nat)

theorem inputAt_of_isLexeme (hblanks : IsBlanks blanks)
    (h : IsLexeme rest lexeme token) :
    inputAt offset (blanks ++ (lexeme ++ rest))
      = (inputAt (offset + byteLength blanks + byteLength lexeme) rest).cons
          ⟨token, offset + byteLength blanks⟩ := by
  refine (Cursor.input_of_scan_ok (Cursor.scan_of_isLexeme hblanks h rfl)).trans ?_
  rw [Cursor.input_eq_inputAt, Input.ofNext, h.isEof_eq_false]
  rfl

theorem inputAt_of_isFault (hblanks : IsBlanks blanks) (h : IsFault cs fault) :
    inputAt offset (blanks ++ cs) = ⟨[], .fault (fault (offset + byteLength blanks))⟩ :=
  Cursor.input_of_scan_error (Prod.ext (Cursor.scan_of_isFault hblanks h rfl) rfl)

theorem inputAt_of_blanks (hblanks : IsBlanks blanks) :
    inputAt offset blanks = ⟨[], .ending (offset + byteLength blanks)⟩ :=
  Cursor.input_of_scan_ok (Cursor.scan_of_blanks hblanks rfl)

end Lexemes

section FirstToken

variable {c : Char} {run rest : List Char} {offset : Nat}

theorem inputAt_nil (offset : Nat) : inputAt offset [] = ⟨[], .ending offset⟩ :=
  inputAt_of_blanks offset isBlanks_nil

/-- A blank is passed over. -/
theorem inputAt_blank (h : isBlank c = true) :
    inputAt offset (c :: rest) = inputAt (offset + c.utf8Size) rest := by
  have hscan : (⟨[], c :: rest, offset⟩ : Cursor).scan
      = (⟨[c], rest, offset + c.utf8Size⟩ : Cursor).scan := by
    unfold Cursor.scan
    congr 1
    simp [Cursor.skipWhile, h, Nat.add_assoc]
  exact (Cursor.input_eq_of_scan_eq hscan).trans (Cursor.input_eq_inputAt _)

/-- Blanks are passed over. -/
theorem inputAt_blanks_append {blanks : List Char} (h : IsBlanks blanks) : ∀ offset,
    inputAt offset (blanks ++ rest) = inputAt (offset + byteLength blanks) rest := by
  induction blanks with
  | nil => intro offset; rfl
  | cons c blanks ih =>
    obtain ⟨hc, hblanks⟩ := List.forall_mem_cons.mp h
    intro offset
    rw [List.cons_append, inputAt_blank hc, ih hblanks, byteLength_cons, Nat.add_assoc]

/-- A run of number characters without a value is a fault. -/
theorem inputAt_malformed (hc : c.isDigit = true) (hrun : ∀ d ∈ c :: run, isNumberPart d = true)
    (hrest : StopsRun isNumberPart rest) (hvalue : Number.ofLiteralChars? (c :: run) = none) :
    inputAt offset (c :: run ++ rest)
      = ⟨[], .fault (.malformedNumber (String.ofList (c :: run)) offset)⟩ :=
  inputAt_of_isFault offset isBlanks_nil (.malformed hc hrun hrest hvalue)

/-- A symbol is a token of its own. -/
theorem inputAt_symbol {token : Token} (h : Token.ofSymbol? c = some token) :
    inputAt offset (c :: rest) = (inputAt (offset + c.utf8Size) rest).cons ⟨token, offset⟩ :=
  inputAt_of_isLexeme offset isBlanks_nil (.symbol h)

end FirstToken

end Abacus
