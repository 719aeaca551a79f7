import FlowOpt.Json.Text
import FlowOpt.Json.Value

/-!
# Quoted text reads back

Each character is written as one part: itself, or the escape of its number. Only control characters
are written by number, so the parts never hold a surrogate.
-/

namespace FlowOpt.Json

def escapedByName : List Char := ['"', '\\', '\x08', '\x0c', '\n', '\r', '\t']

def partOf (c : Char) : TextPart :=
  if c.toNat < 32 ∧ c ∉ escapedByName then .escaped c.toNat else .char c

theorem hexUnit?_hexDigit {n : Nat} (h : n < 32) :
    hexUnit? '0' '0' (hexDigit (n / 16)) (hexDigit (n % 16)) = some n := by
  revert n
  decide

theorem scanParts_escape (c : Char) (cs : List Char) :
    scanParts (escape c ++ cs) = (partOf c :: (scanParts cs).1, (scanParts cs).2) := by
  by_cases hnamed : c ∈ escapedByName
  · simp only [escapedByName, List.mem_cons, List.not_mem_nil, or_false] at hnamed
    rcases hnamed with rfl | rfl | rfl | rfl | rfl | rfl | rfl <;> rfl
  · have hpart : partOf c = if c.toNat < 32 then .escaped c.toNat else .char c := by
      simp only [partOf, hnamed, not_false_eq_true, and_true]
    simp only [escapedByName, List.mem_cons, List.not_mem_nil, or_false, not_or] at hnamed
    by_cases hcontrol : c.toNat < 32
    · simp [escape, scanParts, hpart, hnamed, hcontrol, hexUnit?_hexDigit hcontrol]
    · simp [escape, scanParts, hpart, hnamed, hcontrol]

theorem scanParts_flatMap_escape (cs rest : List Char) :
    scanParts (cs.flatMap escape ++ '"' :: rest) = (cs.map partOf, .ok rest) := by
  induction cs with
  | nil => rfl
  | cons c cs ih => rw [List.flatMap_cons, List.append_assoc, scanParts_escape, ih, List.map_cons]

/-- A number below the surrogates stands for its character, whatever follows it. -/
theorem readParts_escaped {stop : Option Fault} {unit : Nat} (h : unit < 0xD800)
    (parts : List TextPart) : readParts stop (.escaped unit :: parts) =
      (readParts stop parts).map (Char.ofNat unit :: ·) := by
  have hhigh : isHighSurrogate unit = false := by
    simp only [isHighSurrogate, Bool.and_eq_false_iff, decide_eq_false_iff_not]
    omega
  have hlow : isLowSurrogate unit = false := by
    simp only [isLowSurrogate, Bool.and_eq_false_iff, decide_eq_false_iff_not]
    omega
  match parts with
  | [] => simp [readParts, hhigh, hlow]
  | .char c :: parts => simp [readParts, hhigh, hlow]
  | .escaped next :: parts => simp [readParts, hhigh, hlow]

theorem readParts_partOf (c : Char) (stop : Option Fault) (parts : List TextPart) :
    readParts stop (partOf c :: parts) = (readParts stop parts).map (c :: ·) := by
  unfold partOf
  split
  case isTrue h => rw [readParts_escaped (by omega), Char.ofNat_toNat]
  case isFalse => rfl

theorem readParts_map_partOf (cs : List Char) : readParts none (cs.map partOf) = .ok cs := by
  induction cs with
  | nil => rfl
  | cons c cs ih => rw [List.map_cons, readParts_partOf, ih, Except.map]

theorem exists_scanParts (s : String) (rest : List Char) :
    ∃ parts, scanParts (s.toList.flatMap escape ++ '"' :: rest) = (parts, .ok rest) ∧
      Quoted.read ⟨parts, none⟩ = .ok s := by
  refine ⟨_, scanParts_flatMap_escape s.toList rest, ?_⟩
  rw [Quoted.read, readParts_map_partOf, Except.map, String.ofList_toList]

end FlowOpt.Json
