import BitStore.Toml.Document
import Mathlib.Data.List.TakeWhile
import Mathlib.Tactic.IntervalCases

/-! Decimal numbers read back: the digits of a number form an integer of the
document, and the integer they give is the number. -/

namespace BitStore.Toml

namespace Number

variable {c : Char} {cs : List Char}

/-! ### Words of digits -/

theorem ne_of_isDigit {d : Char} (h : c.isDigit = true) (hd : d.isDigit = false) : c ≠ d := by
  rintro rfl
  simp_all

theorem digit?_of_isDigit (h : c.isDigit = true) : digit? 10 c = some (c.toNat - '0'.toNat) := by
  simp only [Char.isDigit, Bool.and_eq_true, decide_eq_true_eq] at h
  have hlow : '0' ≤ c := h.1
  have hhigh : c ≤ '9' := h.2
  have : c.toNat ≤ 57 := h.2
  simp only [digit?, hlow, hhigh, and_self, if_true, Option.filter_some]
  simp
  omega

theorem splitSign_of_isDigit (h : ∀ c ∈ cs, c.isDigit = true) : splitSign cs = (none, cs) := by
  unfold splitSign
  split
  · exact absurd (h '-' (by simp)) (by decide)
  · exact absurd (h '+' (by simp)) (by decide)
  · rfl

theorem splitBase?_of_isDigit (h : ∀ c ∈ cs, c.isDigit = true) : splitBase? cs = none := by
  unfold splitBase?
  split
  · exact absurd (h 'x' (by simp)) (by decide)
  · exact absurd (h 'o' (by simp)) (by decide)
  · exact absurd (h 'b' (by simp)) (by decide)
  · rfl

theorem underscoresFit_of_isDigit {p : Char → Bool} (h : ∀ c ∈ cs, c.isDigit = true) (afterDigit : Bool) :
    underscoresFitAfter p afterDigit cs = true := by
  induction cs generalizing afterDigit with
  | nil => rfl
  | cons c cs ih =>
    have hc : c ≠ '_' := ne_of_isDigit (h c (by simp)) (by decide)
    simp [underscoresFitAfter, hc, ih (fun d hd => h d (List.mem_cons_of_mem _ hd))]

/-- A word of digits without a zero in front of others is an integer. -/
theorem isInteger_of_isDigit (hcs : cs ≠ []) (h : ∀ c ∈ cs, c.isDigit = true)
    (hzero : hasNoLeadingZero cs = true) : isInteger cs = true := by
  have hrest : cs.dropWhile Char.isDigit = [] := List.dropWhile_eq_nil_iff.mpr h
  have hfit : underscoresFit (isDigitIn 16) cs = true := underscoresFit_of_isDigit h false
  simp [isInteger, splitBase?_of_isDigit h, splitSign_of_isDigit h, hrest, hcs, hzero, hfit]

/-- A word of digits denotes what its digits add up to. -/
theorem ofDigits?_of_isDigit (hcs : cs ≠ []) (h : ∀ c ∈ cs, c.isDigit = true) :
    ofDigits? 10 cs = some (Nat.ofDigitChars 10 cs 0) := by
  have hfold (n : Nat) :
      cs.foldlM (fun n c => (digit? 10 c).map (10 * n + ·)) n = some (Nat.ofDigitChars 10 cs n) := by
    clear hcs
    induction cs generalizing n with
    | nil => rfl
    | cons c cs ih =>
      rw [List.foldlM_cons, digit?_of_isDigit (h c (by simp))]
      exact ih (fun d hd => h d (List.mem_cons_of_mem _ hd)) _
  rw [ofDigits?, if_neg (by simpa using hcs), hfold]

theorem integer?_of_isDigit (hcs : cs ≠ []) (h : ∀ c ∈ cs, c.isDigit = true)
    (hsize : Nat.ofDigitChars 10 cs 0 < 1 <<< 128) : integer? cs = some (Nat.ofDigitChars 10 cs 0 : Int) := by
  have hplain : cs.filter (· != '_') = cs := by
    refine List.filter_eq_self.mpr fun c hc => ?_
    simpa using ne_of_isDigit (h c hc) (by decide)
  have hsign : ¬(Nat.ofDigitChars 10 cs 0 : Int) < 0 := by omega
  simp only [integer?, splitBase?_of_isDigit h, splitSign_of_isDigit h, hplain, ofDigits?_of_isDigit hcs h]
  simp only [Nat.reduceShiftLeft] at hsize
  simp [guard, hsign, hsize]

/-! ### The digits of a number -/

theorem head?_toDigits {n : Nat} (hn : n ≠ 0) : (Nat.toDigits 10 n).head? ≠ some '0' := by
  induction n using Nat.strongRecOn with
  | ind n ih =>
    rw [Nat.toDigits_eq_if (by decide)]
    split
    case isTrue h => interval_cases n <;> first | contradiction | decide
    case isFalse h =>
      rw [List.head?_append, Option.or_of_isSome (by simp [Nat.toDigits_ne_nil])]
      exact ih (n / 10) (by omega) (by omega)

theorem hasNoLeadingZero_toDigits (n : Nat) : hasNoLeadingZero (Nat.toDigits 10 n) = true := by
  by_cases hn : n = 0
  · subst hn
    decide
  · simp [hasNoLeadingZero, head?_toDigits hn]

end Number

/-- The digits of a number of up to 128 bits stand for it. -/
theorem scalar?_toDigits {n : Nat} (h : n < 1 <<< 128) : scalar? (Nat.toDigits 10 n) = some (.integer n) := by
  have hdigit : ∀ c ∈ Nat.toDigits 10 n, c.isDigit = true := fun c =>
    Nat.isDigit_of_mem_toDigits (by decide) (by decide)
  have hvalue : Nat.ofDigitChars 10 (Nat.toDigits 10 n) 0 = n := Nat.ofDigitChars_toDigits (by decide) (by decide)
  have hinteger := Number.isInteger_of_isDigit Nat.toDigits_ne_nil hdigit (Number.hasNoLeadingZero_toDigits n)
  have hread := Number.integer?_of_isDigit Nat.toDigits_ne_nil hdigit (by rwa [hvalue])
  rw [hvalue] at hread
  -- no other word that may stand for something consists of digits
  have hother (word : String) (hword : ∃ c ∈ word.toList, c.isDigit = false) :
      Nat.toDigits 10 n ≠ word.toList := by
    rintro heq
    obtain ⟨c, hc, hno⟩ := hword
    simp [hdigit c (heq ▸ hc)] at hno
  have htext (word : String) (hword : ∃ c ∈ word.toList, c.isDigit = false) :
      String.ofList (Nat.toDigits 10 n) ≠ word := by
    rintro rfl
    exact hother _ hword (by simp)
  have hspecial : Number.isSpecial (Nat.toDigits 10 n) = false := by
    simp only [Number.isSpecial, Number.splitSign_of_isDigit hdigit, Bool.or_eq_false_iff, beq_eq_false_iff_ne]
    exact ⟨hother "inf" ⟨'i', by decide, by decide⟩, hother "nan" ⟨'n', by decide, by decide⟩⟩
  simp only [scalar?, hspecial, hinteger, hread]
  simp [htext "true" ⟨'t', by decide, by decide⟩, htext "false" ⟨'f', by decide, by decide⟩]

end BitStore.Toml
