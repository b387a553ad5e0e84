import Mathlib.Data.BitVec
import SnakeOs.Config.Network

/-! Which addresses and masks the scripts of the network page let through. -/

namespace SnakeOs.Config
open Lib

/-- Four groups of one to three digits with dots between them. -/
structure Groups (value : Line) (parts : List Line) : Prop where
  joined : ['.'].intercalate parts = value
  four : parts.length = 4
  digits : ∀ p ∈ parts, p ≠ [] ∧ p.length ≤ 3 ∧ ∀ c ∈ p, c.isDigit = true

/-- `k` ones and then zeros. -/
def IsMask (k : Nat) (w : BitVec 32) : Prop := ∀ i < 32, w.getMsbD i = decide (i < k)

/-- The octets of a word, the first one in front. -/
def octets (w : BitVec 32) : List Nat := [24, 16, 8, 0].map fun i => (w.extractLsb' i 8).toNat

def maskWord (k : Nat) : BitVec 32 := BitVec.allOnes 32 <<< (32 - k)

theorem Groups.split {value : Line} {parts : List Line} (h : Groups value parts) :
    value.splitOn '.' = parts := by
  rw [← h.joined]
  refine List.splitOn_intercalate '.' (fun p hp hdot => ?_) fun he => ?_
  · exact absurd ((h.digits p hp).2.2 '.' hdot) (by decide)
  · have := h.four
    rw [he] at this
    cases this

/-- The pattern of the scripts finds the groups. -/
theorem dotted_iff {value : Line} {parts : List Line} :
    dotted value = some parts ↔ Groups value parts := by
  constructor
  · intro h
    obtain ⟨hjoin, a, b, c, d, rfl⟩ := dotted_some h
    unfold dotted at h
    split_ifs at h with hp
    exact ⟨hjoin, rfl, Option.some.inj h ▸ hp.2⟩
  · intro h
    have hp : parts.length = 4 ∧ ∀ p ∈ parts, p ≠ [] ∧ p.length ≤ 3 ∧ ∀ c ∈ p, c.isDigit = true :=
      ⟨h.four, h.digits⟩
    rw [dotted, h.split, if_pos hp]

theorem isMask_iff {k : Nat} (hk : k ≤ 32) {w : BitVec 32} : IsMask k w ↔ w = maskWord k := by
  have hmask : IsMask k (maskWord k) := by
    intro i hi
    rw [maskWord, BitVec.getMsbD_shiftLeft, BitVec.getMsbD_allOnes]
    by_cases h : i < k <;> simp [h] <;> omega
  constructor
  · intro h
    refine BitVec.eq_of_getMsbD_eq fun i hi => ?_
    rw [h i hi, hmask i hi]
  · rintro rfl
    exact hmask

/-- The tests of the octets find the masks with at least one bit and not all. -/
theorem masks_found {a b c d : Nat} :
    (a ≠ 0 ∧ d ≠ 255 ∧ (∀ n ∈ [a, b, c, d], n ∈ validOctets) ∧ noHoles false [d, c, b, a] = true) ↔
      ∃ k, 1 ≤ k ∧ k ≤ 31 ∧ [a, b, c, d] = octets (maskWord k) := by
  constructor
  · rintro ⟨ha, hd, hall, hholes⟩
    have hlast : ∀ n ∈ validOctets, n = 0 ∨ ∃ j < 8, octets (maskWord (j + 1)) = [n, 0, 0, 0] ∧
        octets (maskWord (j + 9)) = [255, n, 0, 0] ∧ octets (maskWord (j + 17)) = [255, 255, n, 0] ∧
        (n = 255 ∨ j < 7 ∧ octets (maskWord (j + 25)) = [255, 255, 255, n]) := by decide
    by_cases hd0 : d = 0
    · by_cases hc0 : c = 0
      · by_cases hb0 : b = 0
        · obtain ⟨j, hj, h, -⟩ := (hlast a (hall a (by simp))).resolve_left ha
          exact ⟨j + 1, by omega, by omega, by rw [h, hb0, hc0, hd0]⟩
        · obtain rfl : a = 255 := by simpa [noHoles, hd0, hc0, hb0] using hholes
          obtain ⟨j, hj, -, h, -⟩ := (hlast b (hall b (by simp))).resolve_left hb0
          exact ⟨j + 9, by omega, by omega, by rw [h, hc0, hd0]⟩
      · obtain ⟨rfl, rfl⟩ : b = 255 ∧ a = 255 := by simpa [noHoles, hd0, hc0] using hholes
        obtain ⟨j, hj, -, -, h, -⟩ := (hlast c (hall c (by simp))).resolve_left hc0
        exact ⟨j + 17, by omega, by omega, by rw [h, hd0]⟩
    · obtain ⟨rfl, rfl, rfl⟩ : c = 255 ∧ b = 255 ∧ a = 255 := by simpa [noHoles, hd0] using hholes
      obtain ⟨j, -, -, -, -, h⟩ := (hlast d (hall d (by simp))).resolve_left hd0
      obtain ⟨hj, h⟩ := h.resolve_left hd
      exact ⟨j + 25, by omega, by omega, h.symm⟩
  · rintro ⟨k, hk, hk', he⟩
    have hall : ∀ k < 32, 1 ≤ k → (octets (maskWord k)).head? ≠ some 0 ∧
        (octets (maskWord k)).getLast? ≠ some 255 ∧ (∀ n ∈ octets (maskWord k), n ∈ validOctets) ∧
        noHoles false (octets (maskWord k)).reverse = true := by decide
    have h := hall k (Nat.lt_succ_of_le hk') hk
    rw [← he] at h
    simpa using h

/-- The mask check accepts the masks of 1 to 31 bits and nothing else. -/
theorem validateMask_iff (mask : Line) : validateMask mask = true ↔
    ∃ parts k w, Groups (mask.filter (· ∉ scriptSpaces)) parts ∧ 1 ≤ k ∧ k ≤ 31 ∧ IsMask k w ∧
      parts.map decimal = octets w := by
  generalize hvalue : mask.filter (· ∉ scriptSpaces) = value
  rw [validateMask, hvalue]
  cases hd : dotted value with
  | none =>
    refine ⟨fun h => absurd h Bool.false_ne_true, ?_⟩
    rintro ⟨parts, k, w, hg, -⟩
    rw [dotted_iff.mpr hg] at hd
    cases hd
  | some parts =>
    have hg := dotted_iff.mp hd
    obtain ⟨-, a, b, c, d, rfl⟩ := dotted_some hd
    have hfound := masks_found (a := decimal a) (b := decimal b) (c := decimal c) (d := decimal d)
    simp only [List.map_cons, List.map_nil, List.head?_cons, List.getLast?_cons_cons,
      List.getLast?_singleton, List.reverse_cons, List.reverse_nil, List.nil_append, List.cons_append,
      Bool.and_eq_true, decide_eq_true_eq, List.all_eq_true, Option.some.injEq, ne_eq, and_assoc,
      decide_not, Bool.not_eq_true', decide_eq_false_iff_not] at hfound ⊢
    rw [hfound]
    constructor
    · rintro ⟨k, hk, hk', he⟩
      exact ⟨_, k, _, hg, hk, hk', (isMask_iff (by omega)).mpr rfl, he⟩
    · rintro ⟨parts, k, w, hg', hk, hk', hw, he⟩
      obtain rfl := hg.split.symm.trans hg'.split
      exact ⟨k, hk, hk', (isMask_iff (by omega)).mp hw ▸ he⟩

/-- An address: four groups of at most 255 each. -/
def Address (value : Line) : Prop := ∃ parts, Groups value parts ∧ ∀ p ∈ parts, decimal p ≤ 255

def zeroAddress : Line := "0.0.0.0".toList

def broadcast : Line := "255.255.255.255".toList

/-- The checks of an address accept what they should. -/
structure ExactlyChecked (value : Line) : Prop where
  ip : validateIP value = true ↔ Address value ∧ value ≠ zeroAddress ∧ value ≠ broadcast
  ipz : validateIPz value = true ↔
    (Address value ∧ value ≠ zeroAddress ∧ value ≠ broadcast) ∨ value = zeroAddress

/-- The last group is not the only one that is too large. -/
def LastFits (value : Line) : Prop :=
  ∀ parts, Groups value parts → (∀ p ∈ parts.take 3, decimal p ≤ 255) →
    ∀ p ∈ parts.drop 3, decimal p ≤ 255

section
variable {value : Line} {parts : List Line}

theorem Groups.exceeds (h : Groups value parts) {p : Line} (hp : p ∈ parts) :
    exceeds p = decide (255 < decimal p) := by
  have hdigits : p.all Char.isDigit = true := List.all_eq_true.mpr (h.digits p hp).2.2
  rw [Config.exceeds, hdigits, Bool.true_and]

/-- The loop looks at the whole match and at the first three groups. -/
theorem validateAddress_iff {refused : List Line} : validateAddress refused value = true ↔
    value ∉ refused ∧ ∃ parts, Groups value parts ∧ ∀ p ∈ parts.take 3, decimal p ≤ 255 := by
  rw [validateAddress, Bool.and_eq_true, decide_eq_true_iff]
  refine and_congr_right fun _ => ?_
  cases hd : dotted value with
  | none =>
    refine ⟨fun h => absurd h Bool.false_ne_true, ?_⟩
    rintro ⟨parts, hg, -⟩
    rw [dotted_iff.mpr hg] at hd
    cases hd
  | some parts =>
    have hg := dotted_iff.mp hd
    have hwhole : Config.exceeds value = false := by
      have hdot : value.all Char.isDigit = false := by
        obtain ⟨hjoin, a, b, c, d, rfl⟩ := dotted_some hd
        rw [← hjoin]
        simp [List.intercalate_cons_cons]
      rw [Config.exceeds, hdot, Bool.false_and]
    have hgroups : (parts.take 3).any Config.exceeds = false ↔ ∀ p ∈ parts.take 3, decimal p ≤ 255 := by
      rw [List.any_eq_false]
      refine forall₂_congr fun p hp => ?_
      rw [hg.exceeds (List.mem_of_mem_take hp)]
      simp
    simp only [List.take_succ_cons, List.any_cons, hwhole, Bool.false_or, Bool.not_eq_true', hgroups]
    constructor
    · exact fun h => ⟨parts, hg, h⟩
    · rintro ⟨parts', hg', h⟩
      exact (hg.split.symm.trans hg'.split) ▸ h

end

theorem lastFits_iff {value : Line} : LastFits value ↔
    ((∃ parts, Groups value parts ∧ ∀ p ∈ parts.take 3, decimal p ≤ 255) → Address value) := by
  constructor
  · rintro h ⟨parts, hg, hfirst⟩
    refine ⟨parts, hg, fun p hp => ?_⟩
    rw [← List.take_append_drop 3 parts] at hp
    rcases List.mem_append.mp hp with hp | hp
    · exact hfirst p hp
    · exact h parts hg hfirst p hp
  · intro h parts hg hfirst p hp
    obtain ⟨parts', hg', hall⟩ := h ⟨parts, hg, hfirst⟩
    obtain rfl := hg.split.symm.trans hg'.split
    exact hall p (List.mem_of_mem_drop hp)

theorem address_of_dotted {value : Line} (parts : List Line) (h : dotted value = some parts)
    (hp : ∀ p ∈ parts, decimal p ≤ 255) : Address value := ⟨parts, dotted_iff.mp h, hp⟩

/-- The checks of an address are exact but for a last group over 255. -/
theorem address_checked_iff (value : Line) : ExactlyChecked value ↔ LastFits value := by
  have hzero : Address zeroAddress :=
    address_of_dotted [['0'], ['0'], ['0'], ['0']] (by decide) (by decide)
  have hbroadcast : Address broadcast :=
    address_of_dotted (List.replicate 4 ['2', '5', '5']) (by decide) (by decide)
  have hne : zeroAddress ≠ broadcast := by decide
  have hloop : Address value → ∃ parts, Groups value parts ∧ ∀ p ∈ parts.take 3, decimal p ≤ 255 :=
    fun ⟨parts, hg, hall⟩ => ⟨parts, hg, fun p hp => hall p (List.mem_of_mem_take hp)⟩
  have hip : validateIP value = true ↔ value ∉ [zeroAddress, broadcast] ∧ _ := validateAddress_iff
  have hipz : validateIPz value = true ↔ value ∉ [broadcast] ∧ _ := validateAddress_iff
  rw [lastFits_iff]
  constructor
  · rintro ⟨h, -⟩ hfirst
    by_cases hz : value = zeroAddress
    · exact hz ▸ hzero
    by_cases hb : value = broadcast
    · exact hb ▸ hbroadcast
    exact (h.mp (hip.mpr ⟨by simpa using ⟨hz, hb⟩, hfirst⟩)).1
  · intro h
    have hsame := Iff.intro h hloop
    rw [hsame] at hip hipz
    refine ⟨?_, ?_⟩
    · rw [hip, List.mem_cons, List.mem_singleton, not_or, and_comm]
    · rw [hipz, List.mem_singleton]
      constructor
      · rintro ⟨hb, ha⟩
        by_cases hz : value = zeroAddress
        · exact .inr hz
        · exact .inl ⟨ha, hz, hb⟩
      · rintro (⟨ha, -, hb⟩ | rfl)
        · exact ⟨hb, ha⟩
        · exact ⟨hne, hzero⟩

/-- The last group is not compared with anything. -/
theorem address_unchecked : ¬ ExactlyChecked "1.2.3.999".toList := by
  intro h
  obtain ⟨⟨parts, hg, hall⟩, -⟩ := h.ip.mp (by decide)
  have hparts : "1.2.3.999".toList.splitOn '.' = [['1'], ['2'], ['3'], ['9', '9', '9']] := by decide
  rw [hg.split] at hparts
  exact absurd (hall ['9', '9', '9'] (by simp [hparts])) (by decide)

end SnakeOs.Config
