import ChurchScript.Proofs.Term.Depth
import ChurchScript.Proofs.Term.FreeNames
import ChurchScript.Proofs.Term.Marks

/-!
# Numbers of a fixed width in terms

How often anything is counted in a term is bounded by its size, and the size of a term that
is read from text by the length of the text, also once numerals are put in
(`parsed_size_le`). So the numbers that are kept while a term is expanded and resolved can be
held in words of a fixed width: reading a numeral digit by digit (`numeralWithin?_eq`) and
resolving with a counter of 32 bits (`resolveWithin_eq`) come to the same when every step is
checked.
-/
namespace ChurchScript

/-- A number, if it fits into a word of `bits` bits. -/
def unsigned? (bits n : Nat) : Option Nat :=
  if n < 2 ^ bits then some n else none

theorem unsigned?_eq_some {bits n : Nat} (wide : 32 ≤ bits) (small : n < 2 ^ 32) :
    unsigned? bits n = some n :=
  if_pos (small.trans_le (Nat.pow_le_pow_right Nat.two_pos wide))

namespace Term

section Sizes

theorem size_pos (t : Term) : 0 < t.size := by
  induction t with
  | var x index binder => exact Nat.one_pos
  | abs x binder body ih => exact Nat.add_pos_left Nat.one_pos _
  | app f a ihf iha => exact Nat.add_pos_left ihf _

theorem depth_le_size (t : Term) : t.depth ≤ t.size := by
  induction t with
  | var x index binder => simp [size]
  | abs x binder body ih =>
    simp only [depth_abs, size]
    omega
  | app f a ihf iha =>
    have function := f.size_pos
    have argument := a.size_pos
    simp only [depth_app, size]
    omega

theorem missing_le_size (t : Term) : missing t.marks ≤ t.size := by
  induction t with
  | var x index binder => exact Nat.zero_le _
  | abs x mark body ih =>
    cases mark with
    | none =>
      rw [marks, missing_none, size]
      omega
    | some mark =>
      rw [marks, missing_some, size]
      omega
  | app f a ihf iha =>
    rw [marks, missing_append, size]
    omega

theorem size_plain (t : Term) : t.plain.size = t.size := by
  induction t with
  | var x index binder => rfl
  | abs x binder body ih => simp [plain, size, ih]
  | app f a ihf iha => simp [plain, size, ihf, iha]

theorem size_resolve (t : Term) : t.resolve.size = t.size := by
  have shape : t.resolve.plain = t.plain := annotate_plain t [] _
  rw [← size_plain, shape, size_plain]

mutual

/-- Every variable and every abstraction is opened by a lexeme of its own. -/
theorem Phrase.size_le_length (phrase : Phrase) : phrase.term.size ≤ phrase.lexemes.length := by
  cases phrase with
  | abstraction x body =>
    have inner := body.size_le_length
    simp only [Phrase.term, Phrase.lexemes, size, List.length_cons]
    omega
  | application head others =>
    have first := head.size_le_length
    have behind := applyOperands_size_le_length others head.term
    simp only [Phrase.term, Phrase.lexemes, List.length_append]
    omega

theorem Operand.size_le_length (operand : Operand) :
    operand.term.size ≤ operand.lexemes.length := by
  cases operand with
  | name x => exact le_rfl
  | group inner =>
    have inside := inner.size_le_length
    simp only [Operand.term, Operand.lexemes, List.length_cons, List.length_append]
    omega

theorem applyOperands_size_le_length (operands : List Operand) (f : Term) :
    (applyOperands f operands).size ≤ f.size + (operandLexemes operands).length := by
  cases operands with
  | nil => exact Nat.le_add_right _ _
  | cons operand others =>
    have first := operand.size_le_length
    have behind := applyOperands_size_le_length others (app f operand.term)
    simp only [applyOperands, operandLexemes, List.length_append, size] at behind ⊢
    omega

end

mutual

/-- A term that is read carries no marks. -/
theorem Phrase.binders_term (phrase : Phrase) : phrase.term.binders = [] := by
  cases phrase with
  | abstraction x body => simp [Phrase.term, binders, body.binders_term]
  | application head others =>
    exact applyOperands_binders others head.binders_term

theorem Operand.binders_term (operand : Operand) : operand.term.binders = [] := by
  cases operand with
  | name x => rfl
  | group inner => exact inner.binders_term

theorem applyOperands_binders (operands : List Operand) {f : Term} (bare : f.binders = []) :
    (applyOperands f operands).binders = [] := by
  cases operands with
  | nil => exact bare
  | cons operand others =>
    refine applyOperands_binders others ?_
    simp [binders, bare, operand.binders_term]

end

theorem iterate_size (f x : Term) (n : Nat) : (iterate f x n).size = n * f.size + x.size := by
  induction n with
  | zero => simp [iterate]
  | succ n ih =>
    rw [iterate, size, ih, Nat.succ_mul]
    omega

theorem numeral_size (n : Nat) : (numeral n).size = n + 3 := by
  simp only [numeral, size, iterate_size]
  omega

theorem iterate_binders {f x : Term} (function : f.binders = []) (argument : x.binders = [])
    (n : Nat) : (iterate f x n).binders = [] := by
  induction n with
  | zero => exact argument
  | succ n ih => simp [iterate, binders, function, ih]

theorem numeral_binders (n : Nat) : (numeral n).binders = [] :=
  iterate_binders rfl rfl n

/-- A numeral is no larger than the largest, wherever one is put in. -/
theorem expandUnder_size_le (t : Term) (bound : List String) :
    (t.expandUnder bound).size ≤ (maxNumeral + 3) * t.size := by
  induction t generalizing bound with
  | var x index binder =>
    unfold expandUnder
    cases value : numeralValue? x with
    | none => simp [size]
    | some n =>
      obtain ⟨-, -, -, bounded⟩ := (numeralValue_eq_some_iff x n).mp value
      by_cases inside : x ∈ bound
      · simp [inside, size]
      · simp [inside, size, numeral_size, maxNumeral, bounded]
  | abs x binder body ih =>
    have inner := ih (x :: bound)
    simp only [expandUnder, size, maxNumeral] at inner ⊢
    omega
  | app f a ihf iha =>
    have function := ihf bound
    have argument := iha bound
    simp only [expandUnder, size, maxNumeral] at function argument ⊢
    omega

theorem expandUnder_binders {t : Term} (bare : t.binders = []) (bound : List String) :
    (t.expandUnder bound).binders = [] := by
  induction t generalizing bound with
  | var x index binder =>
    unfold expandUnder
    cases value : numeralValue? x with
    | none => exact bare
    | some n =>
      by_cases inside : x ∈ bound
      · simpa [inside] using bare
      · simp [inside, numeral_binders]
  | abs x binder body ih =>
    obtain ⟨mark, inner⟩ := List.append_eq_nil_iff.mp bare
    exact List.append_eq_nil_iff.mpr ⟨mark, ih inner _⟩
  | app f a ihf iha =>
    obtain ⟨function, argument⟩ := List.append_eq_nil_iff.mp bare
    exact List.append_eq_nil_iff.mpr ⟨ihf function _, iha argument _⟩

/-- A term that is read is no larger than the longest text, and carries no marks. -/
theorem parsed_size_le {source : String} {t : Term} (parsed : parse source = .ok t) :
    t.size ≤ Token.maxLength ∧ t.binders = [] := by
  obtain ⟨phrase, spelled, rfl, -⟩ := phrase_of_parse parsed
  refine ⟨?_, phrase.binders_term⟩
  calc phrase.term.size ≤ phrase.lexemes.length := phrase.size_le_length
    _ = (Lexeme.all source.toList).length := by rw [spelled]
    _ ≤ source.toList.length := Lexeme.length_all_le _
    _ = source.length := String.length_toList
    _ ≤ Token.maxLength := length_le_of_parse parsed

end Sizes

section Numerals

/-- Reads digits behind the number `n`, as long as the number fits into `bits` bits at every
step. -/
def readDigits (bits n : Nat) : List Char → Option Nat
  | [] => some n
  | c :: rest => do
    let shifted ← unsigned? bits (n * 10)
    let next ← unsigned? bits (shifted + Digits.digit c)
    readDigits bits next rest

/-- The numeral that a name stands for, read into a word of `bits` bits. -/
def numeralWithin? (bits : Nat) (x : String) : Option Nat :=
  if Digits.isNumber x.toList then
    (readDigits bits 0 x.toList).filter (· ≤ maxNumeral)
  else none

theorem le_foldl_digits (digits : List Char) (n : Nat) :
    n ≤ digits.foldl (fun n c => 10 * n + Digits.digit c) n := by
  induction digits generalizing n with
  | nil => exact le_rfl
  | cons c rest ih =>
    have behind := ih (10 * n + Digits.digit c)
    rw [List.foldl_cons]
    omega

/-- A number only grows as it is read, so it fits in the end or it failed to fit once. -/
theorem readDigits_eq {bits n : Nat} (held : n < 2 ^ bits) (digits : List Char) :
    readDigits bits n digits =
      unsigned? bits (digits.foldl (fun n c => 10 * n + Digits.digit c) n) := by
  induction digits generalizing n with
  | nil => exact (if_pos held).symm
  | cons c rest ih =>
    rw [List.foldl_cons]
    by_cases fits : 10 * n + Digits.digit c < 2 ^ bits
    · have shifted : unsigned? bits (n * 10) = some (10 * n) := by
        rw [Nat.mul_comm]
        exact if_pos (by omega)
      have next : unsigned? bits (10 * n + Digits.digit c) = some (10 * n + Digits.digit c) :=
        if_pos fits
      simp only [readDigits, shifted, next, Option.bind_eq_bind, Option.bind_some, ih fits]
    · have above := le_foldl_digits rest (10 * n + Digits.digit c)
      have late : unsigned? bits (rest.foldl (fun n c => 10 * n + Digits.digit c)
          (10 * n + Digits.digit c)) = none := if_neg (by omega)
      have next : unsigned? bits (n * 10 + Digits.digit c) = none := if_neg (by omega)
      rw [late, readDigits]
      by_cases shifted : n * 10 < 2 ^ bits
      · simp [unsigned?, shifted] at next ⊢
        omega
      · simp [unsigned?, shifted]

/-- A number that does not fit is no numeral anyway. -/
theorem numeralWithin?_eq {bits : Nat} (wide : 32 ≤ bits) :
    numeralWithin? bits = numeralValue? := by
  funext x
  have room : 2 ^ 32 ≤ 2 ^ bits := Nat.pow_le_pow_right Nat.two_pos wide
  have read := readDigits_eq (n := 0) (Nat.two_pow_pos bits) x.toList
  rw [← Digits.value] at read
  unfold numeralWithin? numeralValue?
  by_cases number : Digits.isNumber x.toList = true
  · by_cases bounded : Digits.value x.toList ≤ maxNumeral
    · have fits : unsigned? bits (Digits.value x.toList) = some (Digits.value x.toList) :=
        unsigned?_eq_some wide (bounded.trans_lt (by decide))
      simp [number, read, fits, bounded, Option.filter]
    · by_cases fits : Digits.value x.toList < 2 ^ bits
      · simp [number, read, unsigned?, fits, bounded, Option.filter]
      · simp [number, read, unsigned?, fits, bounded]
  · simp [number]

end Numerals

section Resolving

variable {bits : Nat}

/-- A number as a word of 32 bits, if it is one. -/
def word? (n : Nat) : Option UInt32 := (unsigned? 32 n).map UInt32.ofNat

theorem word?_succ {n : UInt32} (small : n.toNat + 1 < 2 ^ 32) :
    word? (n.toNat + 1) = some (n + 1) ∧ (n + 1).toNat = n.toNat + 1 := by
  have word : UInt32.ofNat (n.toNat + 1) = n + 1 := by
    rw [UInt32.ofNat_add, UInt32.ofNat_toNat]
    rfl
  rw [word?, unsigned?_eq_some le_rfl small, Option.map_some, word, ← word]
  exact ⟨rfl, UInt32.toNat_ofNat_of_lt' small⟩

/-- Annotates a term on one walk, as `walk` does. There is no result either if a depth does
not fit into `bits` bits, or the counter not into 32. -/
def walkWithin (bits : Nat) : Term → Walk → Option (Term × Walk)
  | var x _ _, w => do
    let depth ← unsigned? bits w.marks.size
    match w.depths.lookup x with
    | some binding =>
      let index ← between? depth binding
      let binder ← w.marks[binding]?
      return (var x (some index) (some binder), w)
    | none => return (var x none none, w)
  | abs x mark body, w => do
    let depth ← unsigned? bits w.marks.size
    let binder := mark.getD ⟨w.next.toNat⟩
    let next ← if mark.isSome then some w.next else word? (w.next.toNat + 1)
    let (body, after) ← body.walkWithin bits
      ⟨w.depths.insert x depth, w.marks.push binder, next⟩
    return (abs x (some binder) body,
      ⟨restore after.depths x (w.depths.lookup x), after.marks.pop, after.next⟩)
  | app f a, w => do
    let (f, w) ← f.walkWithin bits w
    let (a, w) ← a.walkWithin bits w
    return (app f a, w)

/-- Resolves a term behind its greatest mark, if all that is counted fits. -/
def resolveWithin (bits : Nat) (t : Term) : Option Term := do
  let first ← match t.maxBinder with
    | some last => word? (last.id + 1)
    | none => some 0
  let (resolved, _) ← t.walkWithin bits ⟨∅, #[], first⟩
  return resolved

theorem walkWithin_eq (wide : 32 ≤ bits) (t : Term) {w : Walk} {enclosing : Enclosing}
    (tracks : w.Tracks enclosing) (shallow : enclosing.length + t.size < 2 ^ 32)
    (room : w.next.toNat + missing t.marks < 2 ^ 32) : t.walkWithin bits w = t.walk w := by
  induction t generalizing w enclosing with
  | var x index binder =>
    have depth : unsigned? bits w.marks.size = some w.marks.size :=
      unsigned?_eq_some wide (by rw [tracks.size]; omega)
    unfold walkWithin walk
    rw [depth]
    rfl
  | abs x mark body ih =>
    have depth : unsigned? bits w.marks.size = some w.marks.size :=
      unsigned?_eq_some wide (by rw [tracks.size]; omega)
    unfold walkWithin walk
    rw [size] at shallow
    cases mark with
    | none =>
      rw [marks, missing_none] at room
      obtain ⟨next, number⟩ := word?_succ (n := w.next) (by omega)
      have inside := ih (tracks.enter x ⟨w.next.toNat⟩ (w.next + 1))
        (by rw [List.length_cons]; omega) (by dsimp only; omega)
      simp [depth, next, inside]
    | some mark =>
      rw [marks, missing_some] at room
      have inside := ih (tracks.enter x mark w.next) (by rw [List.length_cons]; omega) room
      simp [depth, inside]
  | app f a ihf iha =>
    rw [marks, missing_append] at room
    rw [size] at shallow
    have walked := walk_eq_annotate f tracks
    have counted : (f.annotate enclosing w.next).2.toNat = w.next.toNat + missing f.marks := by
      have behind := (annotate_marks f enclosing w.next.toNat).2
      rw [UInt32.ofNat_toNat] at behind
      rw [behind, UInt32.toNat_ofNat', Nat.mod_eq_of_lt (by omega)]
    have function := ihf tracks (by omega) (by omega)
    have argument := iha (w := { w with next := (f.annotate enclosing w.next).2 })
      ⟨tracks.depths, tracks.marks⟩ (by omega) (by dsimp only; omega)
    simp [walkWithin, walk, function, walked, argument]

/-- A term without marks is resolved within words that can hold its size. -/
theorem resolveWithin_eq (wide : 32 ≤ bits) {t : Term} (bare : t.binders = [])
    (small : t.size < 2 ^ 32) : t.resolveWithin bits = some t.resolve := by
  have unmarked : t.maxBinder = none := by simp [maxBinder, bare]
  have start : Walk.start t = ⟨∅, #[], 0⟩ := by simp [Walk.start, MarkSupply.beyond, unmarked]
  have counted := t.missing_le_size
  have tracks := Walk.start_tracks t
  have room : (Walk.start t).next.toNat + missing t.marks < 2 ^ 32 := by
    rw [start]
    simpa using counted.trans_lt small
  have within := walkWithin_eq wide t tracks (by simpa using small) room
  rw [walk_eq_annotate t tracks] at within
  rw [resolveWithin, unmarked]
  simp only [Option.bind_eq_bind, Option.bind_some, ← start, within]
  rfl

end Resolving

end Term
end ChurchScript
