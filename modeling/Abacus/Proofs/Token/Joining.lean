import Abacus.Proofs.Token.Tiling

/-!
# Texts put together

Where two texts meet, a run of characters may go on from the one into the other, and then what the
first one is divided into is no longer right.  This is all that can go wrong: if the last character
of the first text and the first one of the second are not both characters of a number, then the
first text is divided as it was, whatever the second one is.

## Main definitions

* `Apart` — texts between which no run goes on.

## Main results

* `Tiles.append` — **what tiles a text tiles it also before another one** that is apart from it.
* `Tiles.trans` — tilings one behind the other.
-/

namespace Abacus

variable {cs ds lexeme rest rest' : List Char} {pieces pieces' : List Piece} {token : Token}
  {fault : Nat → LexError}

/-- The last character of the first text and the first one of the second are not both such as a
number may go on with, so no run goes on from the one into the other. -/
def Apart (cs ds : List Char) : Prop :=
  ∀ c ∈ cs.getLast?, ∀ d ∈ ds.head?, ¬ (isNumberPart c = true ∧ isNumberPart d = true)

theorem apart_of_stopsRun (h : StopsRun isNumberPart ds) : Apart cs ds := by
  rintro c - d hd ⟨-, hpart⟩
  exact Bool.false_ne_true ((h d hd).symm.trans hpart)

/-- It does not matter what stands before the last characters. -/
theorem Apart.of_append (h : Apart (rest ++ cs) ds) : Apart cs ds := by
  intro c hc d hd
  refine h c ?_ d hd
  rw [List.getLast?_append, Option.mem_def.mp hc]
  rfl

theorem isNumberPart_of_isNamePart {c : Char} (h : isNamePart c = true) :
    isNumberPart c = true := by
  rw [isNumberPart, h]
  rfl

/-! ### Runs -/

/-- A blank is no part of a number. -/
theorem isNumberPart_of_isBlank {c : Char} (h : isBlank c = true) : isNumberPart c = false := by
  rw [Bool.eq_false_iff]
  intro hpart
  have hgraphic : isBlank c = false := by
    simp only [isNumberPart, isNamePart, Bool.or_eq_true, beq_iff_eq] at hpart
    rcases hpart with (hname | hdigit) | rfl
    · exact isBlank_of_startsName hname
    · exact isBlank_of_isDigit hdigit
    · rfl
  exact Bool.false_ne_true (hgraphic.symm.trans h)

/-- Blanks stop a run, or it is stopped by what is behind them if there are none. -/
theorem IsBlanks.stopsRun_append (h : IsBlanks cs)
    (hds : cs = [] → StopsRun isNumberPart ds) : StopsRun isNumberPart (cs ++ ds) := by
  cases cs with
  | nil => exact hds rfl
  | cons c cs => exact stopsRun_cons (isNumberPart_of_isBlank (h c List.mem_cons_self))

section Runs

variable {p : Char → Bool} {c : Char} {run : List Char}

/-- What stops a run stops it also before another text, if the run reaches so far that it meets it
only where the two are apart. -/
theorem StopsRun.append (h : StopsRun p cs) (hp : ∀ {d}, p d = true → isNumberPart d = true)
    (hrun : ∀ d ∈ c :: run, p d = true) (hapart : Apart (c :: run ++ cs) ds) :
    StopsRun p (cs ++ ds) := by
  cases cs with
  | cons d cs => exact stopsRun_cons (h d rfl)
  | nil =>
    rw [List.append_nil] at hapart
    intro d hd
    -- The run comes up to the second text, and its last character is part of a number.
    have hlast : (c :: run).getLast (List.cons_ne_nil c run) ∈ (c :: run).getLast? :=
      Option.mem_def.mpr (List.getLast?_eq_some_getLast _)
    have hpart := hp (hrun _ (List.getLast_mem (List.cons_ne_nil c run)))
    rw [Bool.eq_false_iff]
    exact fun hd' => hapart _ hlast d hd ⟨hpart, hp hd'⟩

end Runs

/-! ### Lexemes and faults -/

theorem IsLexeme.append (h : IsLexeme cs lexeme token) (hapart : Apart (lexeme ++ cs) ds) :
    IsLexeme (cs ++ ds) lexeme token := by
  cases h with
  | number hc hrun hrest hvalue => exact .number hc hrun (hrest.append id hrun hapart) hvalue
  | name hc hrun hrest => exact .name hc hrun (hrest.append isNumberPart_of_isNamePart hrun hapart)
  | symbol h => exact .symbol h

theorem IsFault.append (h : IsFault cs fault) (hapart : Apart cs ds) :
    IsFault (cs ++ ds) fault := by
  cases h with
  | malformed hc hrun hrest hvalue =>
    rw [List.append_assoc]
    exact .malformed hc hrun (hrest.append id hrun hapart) hvalue
  | unexpected hblank hdigit hname hsymbol => exact .unexpected hblank hdigit hname hsymbol

/-! ### Tilings -/

/-- **What tiles a text tiles it also before another one** that is apart from it. -/
theorem Tiles.append (h : Tiles cs pieces rest) (hapart : Apart cs ds) :
    Tiles (cs ++ ds) pieces (rest ++ ds) := by
  induction h with
  | nil rest => exact .nil (rest ++ ds)
  | cons hblanks hlexeme _ ih =>
    have hbehind := hapart.of_append
    rw [List.append_assoc, List.append_assoc]
    exact .cons hblanks (hlexeme.append hbehind) (ih hbehind.of_append)

/-- Tilings one behind the other. -/
theorem Tiles.trans (h : Tiles cs pieces rest) (h' : Tiles rest pieces' rest') :
    Tiles cs (pieces ++ pieces') rest' := by
  induction h with
  | nil rest => exact h'
  | cons hblanks hlexeme _ ih => exact .cons hblanks hlexeme (ih h')

end Abacus
