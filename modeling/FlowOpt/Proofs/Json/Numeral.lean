import FlowOpt.Json.Numeral
import FlowOpt.Proofs.Number.Shortest

/-!
# Numerals read back

A numeral is scanned by its parts: what is written in them is scanned as them, up to a character
that no numeral goes on with. Integers and finite numbers are written in parts that have their
value, so both read back, each as its own kind.
-/

namespace FlowOpt.Json

def EndsNumeral (rest : List Char) : Prop :=
  ∀ c ∈ rest.head?, ¬ c.isDigit ∧ c ≠ '.' ∧ c ≠ 'e' ∧ c ≠ 'E'

structure Spelling where
  whole : List Char
  fraction : List Char
  exponent : Option Int
  whole_ne_nil : whole ≠ []
  isDigit_whole : ∀ c ∈ whole, c.isDigit
  isDigit_fraction : ∀ c ∈ fraction, c.isDigit
  /-- Only a single digit before the point may be zero. -/
  length_of_zero : whole.head? = some '0' → whole.length ≤ 1

namespace Spelling

def afterPoint : List Char → List Char
  | [] => []
  | c :: cs => '.' :: c :: cs

def afterMark : Option Int → List Char
  | none => []
  | some e => 'e' :: Layout.signedExponent e

def text (s : Spelling) : List Char :=
  s.whole ++ (afterPoint s.fraction ++ afterMark s.exponent)

theorem exists_text_eq_cons (s : Spelling) : ∃ c cs, s.text = c :: cs ∧ c.isDigit := by
  obtain ⟨c, cs, hcs⟩ := List.exists_cons_of_ne_nil s.whole_ne_nil
  exact ⟨c, _, by rw [text, hcs, List.cons_append], s.isDigit_whole c (hcs ▸ List.mem_cons_self)⟩

def numeral (s : Spelling) (negative : Bool) : Numeral :=
  ⟨negative, s.whole ++ s.fraction, s.exponent.getD 0 - s.fraction.length,
    s.fraction.isEmpty && s.exponent.isNone⟩

end Spelling

theorem takeWhile_isDigit {ds rest : List Char} (hds : ∀ c ∈ ds, c.isDigit)
    (hrest : ∀ c ∈ rest.head?, ¬ c.isDigit) :
    (ds ++ rest).takeWhile Char.isDigit = ds := by
  rw [List.takeWhile_append_of_pos hds]
  cases rest with
  | nil => simp
  | cons c cs => simp [hrest c rfl]

theorem dropWhile_isDigit {ds rest : List Char} (hds : ∀ c ∈ ds, c.isDigit)
    (hrest : ∀ c ∈ rest.head?, ¬ c.isDigit) :
    (ds ++ rest).dropWhile Char.isDigit = rest := by
  rw [List.dropWhile_append_of_pos hds]
  cases rest with
  | nil => rfl
  | cons c cs => simp [hrest c rfl]

theorem isDigit_toDigits (n : Nat) : ∀ c ∈ Nat.toDigits 10 n, c.isDigit :=
  fun _ => Nat.isDigit_of_mem_toDigits (by decide) (by decide)

theorem scanExponent_signedExponent (e : Int) {rest : List Char}
    (hrest : ∀ c ∈ rest.head?, ¬ c.isDigit) :
    scanExponent (Layout.signedExponent e ++ rest) = .ok (e, rest) := by
  have htake := takeWhile_isDigit (isDigit_toDigits e.natAbs) hrest
  have hdrop := dropWhile_isDigit (isDigit_toDigits e.natAbs) hrest
  unfold Layout.signedExponent
  have hdigits : (Nat.toDigits 10 e.natAbs).isEmpty = false :=
    List.isEmpty_eq_false_iff.mpr Nat.toDigits_ne_nil
  by_cases he : e < 0
  · have hsize : -(e.natAbs : Int) = e := by omega
    simp only [scanExponent, he, if_true, List.cons_append, htake, hdrop, hdigits,
      Bool.false_eq_true, if_false, Nat.ofDigitChars_ten_toDigits, hsize]
  · have hsize : (e.natAbs : Int) = e := by omega
    simp only [scanExponent, he, if_false, List.cons_append, htake, hdrop, hdigits,
      Bool.false_eq_true, Nat.ofDigitChars_ten_toDigits, hsize]

/-- A mark closes the digits before it, and so does what closes the numeral. -/
theorem closed_afterMark (exponent : Option Int) {rest : List Char} (hrest : EndsNumeral rest) :
    ∀ c ∈ (Spelling.afterMark exponent ++ rest).head?, ¬ c.isDigit ∧ c ≠ '.' := by
  cases exponent with
  | none => exact fun c hc => ⟨(hrest c hc).1, (hrest c hc).2.1⟩
  | some e => simp [Spelling.afterMark]

theorem closed_afterPoint (fraction : List Char) {tail : List Char}
    (htail : ∀ c ∈ tail.head?, ¬ c.isDigit) :
    ∀ c ∈ (Spelling.afterPoint fraction ++ tail).head?, ¬ c.isDigit := by
  cases fraction with
  | nil => exact htail
  | cons d ds => simp [Spelling.afterPoint]

theorem scanMark_afterMark (exponent : Option Int) {rest : List Char} (hrest : EndsNumeral rest) :
    scanMark (Spelling.afterMark exponent ++ rest) = .ok (exponent, rest) := by
  cases exponent with
  | none =>
    cases rest with
    | nil => rfl
    | cons c cs =>
      obtain ⟨-, -, he, hE⟩ := hrest c rfl
      simp [Spelling.afterMark, scanMark, he, hE]
  | some e =>
    have hexponent := scanExponent_signedExponent e fun c hc => (hrest c hc).1
    simp [Spelling.afterMark, scanMark, hexponent, Except.map]

theorem scanFraction_afterPoint {fraction tail : List Char} (hfraction : ∀ c ∈ fraction, c.isDigit)
    (htail : ∀ c ∈ tail.head?, ¬ c.isDigit ∧ c ≠ '.') :
    scanFraction (Spelling.afterPoint fraction ++ tail) = .ok (fraction, tail) := by
  cases fraction with
  | nil =>
    cases tail with
    | nil => rfl
    | cons c cs => simp [Spelling.afterPoint, scanFraction, (htail c rfl).2]
  | cons d ds =>
    have htake := takeWhile_isDigit hfraction fun c hc => (htail c hc).1
    have hdrop := dropWhile_isDigit hfraction fun c hc => (htail c hc).1
    simp only [Spelling.afterPoint, List.cons_append] at htake hdrop ⊢
    simp only [scanFraction, htake, hdrop, List.isEmpty_cons, Bool.false_eq_true, if_false]

theorem scanNumeral_text (s : Spelling) (negative : Bool) {rest : List Char}
    (hrest : EndsNumeral rest) :
    scanNumeral negative (s.text ++ rest) = .ok (s.numeral negative, rest) := by
  have hmark := closed_afterMark s.exponent hrest
  have hpoint := closed_afterPoint s.fraction fun c hc => (hmark c hc).1
  have htake := takeWhile_isDigit s.isDigit_whole hpoint
  have hdrop := dropWhile_isDigit s.isDigit_whole hpoint
  have hsingle : ¬ (1 < s.whole.length ∧ s.whole.head? = some '0') :=
    fun h => Nat.not_lt.mpr (s.length_of_zero h.2) h.1
  simp only [Spelling.text, List.append_assoc, scanNumeral, htake, hdrop, List.isEmpty_iff,
    s.whole_ne_nil, hsingle, if_false, scanFraction_afterPoint s.isDigit_fraction hmark, bind,
    Except.bind, scanMark_afterMark _ hrest]
  rfl

theorem eq_zero_of_head?_toDigits {n : Nat} (h : (Nat.toDigits 10 n).head? = some '0') :
    n = 0 := by
  have hdigit : ∀ d < 10, Nat.digitChar d = '0' → d = 0 := by decide
  induction n using Nat.strongRecOn with
  | ind n ih =>
    by_cases hn : n < 10
    · rw [Nat.toDigits_of_lt_base hn] at h
      exact hdigit n hn (Option.some.inj h)
    · obtain ⟨c, cs, hcs⟩ := List.exists_cons_of_ne_nil (@Nat.toDigits_ne_nil (n / 10) 10)
      rw [Nat.toDigits_of_base_le (by decide) (Nat.le_of_not_lt hn), hcs] at h
      have hzero := ih (n / 10) (by omega) (by rw [hcs]; exact h)
      omega

theorem length_toDigits_of_head? {n : Nat} (h : (Nat.toDigits 10 n).head? = some '0') :
    (Nat.toDigits 10 n).length ≤ 1 := by
  rw [eq_zero_of_head?_toDigits h, Nat.toDigits_zero]
  exact Nat.le_refl 1

namespace Spelling

def decimal (s : Spelling) : Decimal :=
  ⟨Nat.ofDigitChars 10 (s.whole ++ s.fraction) 0, s.exponent.getD 0 - s.fraction.length⟩

def ofNat (n : Nat) : Spelling where
  whole := Nat.toDigits 10 n
  fraction := []
  exponent := none
  whole_ne_nil := Nat.toDigits_ne_nil
  isDigit_whole := isDigit_toDigits n
  isDigit_fraction := by simp
  length_of_zero := length_toDigits_of_head?

def scientific (d : Decimal) (leading : Int) : Spelling where
  whole := (Nat.toDigits 10 d.mantissa).take 1
  fraction := (Nat.toDigits 10 d.mantissa).drop 1
  exponent := some leading
  whole_ne_nil := by simp [Nat.toDigits_ne_nil]
  isDigit_whole c hc := isDigit_toDigits _ c (List.mem_of_mem_take hc)
  isDigit_fraction c hc := isDigit_toDigits _ c (List.mem_of_mem_drop hc)
  length_of_zero _ := List.length_take_le 1 _

theorem text_scientific (d : Decimal) (leading : Int) :
    (scientific d leading).text = Layout.scientificDigits d leading := by
  have hne : Nat.toDigits 10 d.mantissa ≠ [] := Nat.toDigits_ne_nil
  simp only [Layout.scientificDigits, text, scientific]
  match Nat.toDigits 10 d.mantissa, hne with
  | [_], _ => rfl
  | _ :: _ :: _, _ => rfl

theorem decimal_scientific (d : Decimal) (leading : Int) :
    (scientific d leading).decimal =
      ⟨d.mantissa, leading - ((Nat.toDigits 10 d.mantissa).length - 1 : Nat)⟩ := by
  simp only [decimal, scientific, List.take_append_drop, Nat.ofDigitChars_ten_toDigits,
    Option.getD_some, List.length_drop]

def places (d : Decimal) : Nat := (-d.exponent).toNat

def digits (d : Decimal) : List Char :=
  Nat.toDigits 10 d.mantissa ++ List.replicate d.exponent.toNat '0'

def padded (d : Decimal) : List Char :=
  List.replicate (places d + 1 - (digits d).length) '0' ++ digits d

theorem isDigit_zeros (n : Nat) : ∀ c ∈ List.replicate n '0', c.isDigit := by
  intro c hc
  rw [List.eq_of_mem_replicate hc]
  rfl

theorem isDigit_append {cs ds : List Char} (hcs : ∀ c ∈ cs, c.isDigit) (hds : ∀ c ∈ ds, c.isDigit) :
    ∀ c ∈ cs ++ ds, c.isDigit := fun c hc => (List.mem_append.mp hc).elim (hcs c) (hds c)

theorem isDigit_padded (d : Decimal) : ∀ c ∈ padded d, c.isDigit :=
  isDigit_append (isDigit_zeros _) (isDigit_append (isDigit_toDigits _) (isDigit_zeros _))

theorem places_lt_length_padded (d : Decimal) : places d < (padded d).length := by
  simp only [padded, List.length_append, List.length_replicate]
  omega

theorem ofDigitChars_padded (d : Decimal) :
    Nat.ofDigitChars 10 (padded d) 0 = d.mantissa * 10 ^ d.exponent.toNat := by
  simp only [padded, digits, Nat.ofDigitChars_append, Nat.ofDigitChars_replicate_zero, Nat.mul_zero,
    Nat.ofDigitChars_ten_toDigits]
  exact Nat.mul_comm _ _

theorem length_digits_of_head? {d : Decimal} (hd : d.mantissa = 0 → d.exponent = 0)
    (h : (digits d).head? = some '0') : (digits d).length = 1 := by
  obtain ⟨c, cs, hcs⟩ := List.exists_cons_of_ne_nil (@Nat.toDigits_ne_nil d.mantissa 10)
  have hzero : d.mantissa = 0 := by
    rw [digits, hcs] at h
    exact eq_zero_of_head?_toDigits (by rw [hcs]; exact h)
  rw [digits, hzero, hd hzero]
  rfl

theorem length_take_padded {d : Decimal} (hd : d.mantissa = 0 → d.exponent = 0)
    (h : ((padded d).take ((padded d).length - places d)).head? = some '0') :
    ((padded d).take ((padded d).length - places d)).length ≤ 1 := by
  have hplaces := places_lt_length_padded d
  have hlength : (padded d).length = places d + 1 - (digits d).length + (digits d).length := by
    rw [padded, List.length_append, List.length_replicate]
  rw [List.head?_take, if_neg (Nat.sub_ne_zero_of_lt hplaces)] at h
  rw [List.length_take]
  by_cases hshort : (digits d).length ≤ places d
  · omega
  · have hnone : places d + 1 - (digits d).length = 0 := by omega
    rw [padded, hnone, List.replicate_zero, List.nil_append] at h
    have hone := length_digits_of_head? hd h
    omega

def plain (decimals : Nat) (d : Decimal) (hd : d.mantissa = 0 → d.exponent = 0) : Spelling where
  whole := (padded d).take ((padded d).length - places d)
  fraction := (padded d).drop ((padded d).length - places d) ++
    List.replicate (decimals - ((padded d).drop ((padded d).length - places d)).length) '0'
  exponent := none
  whole_ne_nil h := by
    have hlt := places_lt_length_padded d
    have hlength := congrArg List.length h
    simp only [List.length_take, List.length_nil] at hlength
    omega
  isDigit_whole c hc := isDigit_padded d c (List.mem_of_mem_take hc)
  isDigit_fraction :=
    isDigit_append (fun c hc => isDigit_padded d c (List.mem_of_mem_drop hc)) (isDigit_zeros _)
  length_of_zero := length_take_padded hd

theorem text_plain (decimals : Nat) (d : Decimal) (hd : d.mantissa = 0 → d.exponent = 0) :
    (plain decimals d hd).text = Layout.plainDigits decimals d := by
  have hpoint (whole fraction : List Char) : whole ++ (afterPoint fraction ++ []) =
      if fraction.isEmpty then whole else whole ++ '.' :: fraction := by
    cases fraction <;> simp [afterPoint]
  exact hpoint _ _

theorem fraction_plain_ne_nil {decimals : Nat} (hdecimals : 0 < decimals) (d : Decimal)
    (hd : d.mantissa = 0 → d.exponent = 0) : (plain decimals d hd).fraction ≠ [] := by
  apply List.ne_nil_of_length_pos
  simp only [plain, List.length_append, List.length_replicate]
  omega

theorem decimal_plain (decimals : Nat) (d : Decimal) (hd : d.mantissa = 0 → d.exponent = 0) :
    ∃ k : Nat, (plain decimals d hd).decimal = ⟨d.mantissa * 10 ^ k, d.exponent - k⟩ := by
  have hplaces := places_lt_length_padded d
  refine ⟨d.exponent.toNat + (decimals - places d), ?_⟩
  have hdrop : ((padded d).drop ((padded d).length - places d)).length = places d := by
    rw [List.length_drop]
    omega
  simp only [decimal, plain, hdrop, ← List.append_assoc, List.take_append_drop,
    Nat.ofDigitChars_append, ofDigitChars_padded, Nat.ofDigitChars_replicate_zero, Option.getD_none,
    List.length_append, List.length_replicate, Decimal.mk.injEq]
  constructor
  · rw [Nat.pow_add, Nat.mul_comm, Nat.mul_assoc]
  · simp only [places]
    omega

end Spelling

def Spells (text : List Char) (v : Json) : Prop :=
  ∃ (s : Spelling) (negative : Bool),
    text = (if negative then '-' :: s.text else s.text) ∧ (s.numeral negative).value? = some v

theorem spells_integer {n : Int} (low : Int64.minValue.toInt ≤ n)
    (high : n ≤ Int64.maxValue.toInt) : Spells (Json.integer n) (.int n) := by
  refine ⟨.ofNat n.natAbs, decide (n < 0), ?_, ?_⟩
  · simp [Json.integer, Spelling.ofNat, Spelling.text, Spelling.afterPoint, Spelling.afterMark]
  · have hmantissa : Nat.ofDigitChars 10 (Nat.toDigits 10 n.natAbs ++ []) 0 = n.natAbs := by
      rw [List.append_nil, Nat.ofDigitChars_ten_toDigits]
    have hsigned : (if n < 0 then -(n.natAbs : Int) else n.natAbs) = n := by omega
    have hnegative : ¬ (n < 0 ∧ n.natAbs = 0) := by omega
    simp only [Numeral.value?, Numeral.mantissa, Spelling.numeral, Spelling.ofNat, hmantissa,
      decide_eq_true_eq, hsigned]
    exact if_pos ⟨rfl, hnegative, low, high⟩

/-- What rounds to a number and does not look like an integer is read as the number. -/
theorem value?_of_nearestMagnitude {s : Spelling} {x : Binary64} (hx : x.isFinite)
    (hs : (s.fraction.isEmpty && s.exponent.isNone) = false)
    (h : s.decimal.nearestMagnitude = x.magnitude) :
    (s.numeral x.negative).value? = some (.float x) := by
  have hread : Binary64.ofDecimal? x.negative (s.numeral x.negative).mantissa
      (s.numeral x.negative).exponent = some x := Decimal.ofDecimal?_of_nearestMagnitude hx h
  have hplain : ¬ (s.numeral x.negative).isPlain := by simp only [Spelling.numeral, hs]; decide
  rw [Numeral.value?, if_neg fun hint => hplain hint.1]
  exact congrArg (Option.map Json.float) hread

theorem spells_render {l : Layout} (hl : 0 < l.decimals) {x : Binary64} (hx : x.isFinite) :
    Spells (l.render x) (.float x) := by
  have hvalue := Decimal.nearestMagnitude_shortest l.tie x
  have hzero := @Decimal.shortest_exponent_of_mantissa l.tie x
  unfold Layout.render
  generalize Decimal.shortest l.tie x = d at *
  dsimp only
  generalize hleading : d.exponent + ((Nat.toDigits 10 d.mantissa).length : Int) - 1 = leading
  by_cases hplain : (d.mantissa = 0 || l.isPlain leading) = true
  · obtain ⟨k, hk⟩ := Spelling.decimal_plain l.decimals d hzero
    have hfraction := Spelling.fraction_plain_ne_nil hl d hzero
    refine ⟨.plain l.decimals d hzero, x.negative, ?_, value?_of_nearestMagnitude hx ?_ ?_⟩
    · rw [if_pos hplain, Spelling.text_plain]
    · simp [hfraction]
    · rw [hk, Decimal.nearestMagnitude_shift, hvalue]
  · refine ⟨.scientific d leading, x.negative, ?_, value?_of_nearestMagnitude hx
      (Bool.and_false _) ?_⟩
    · rw [if_neg hplain, Spelling.text_scientific]
    · have hlength := @Nat.length_toDigits_pos 10 d.mantissa
      have hexponent : leading - ((Nat.toDigits 10 d.mantissa).length - 1 : Nat) = d.exponent := by
        omega
      rw [Spelling.decimal_scientific, hexponent, hvalue]

end FlowOpt.Json
