/-
The checksum (`net/checksum.rs`) as it is computed: a `u32` that the words
are added to, and a loop that folds its carries. Up to 65535 bytes neither
overflows, two turns are enough, and the result is the complement of the
ones' complement sum; a header or an echo request with its checksum in it
sums up to 0.
-/
import ChodOs.Lib.EndAround
import ChodOs.Net.Udp
import Mathlib.Algebra.Order.BigOperators.Group.List
import Mathlib.Algebra.Order.Ring.Nat

namespace ChodOs.Net

open EndAround

/-- `a + b` in `u32`. `none`: the overflow check traps. -/
def addU32 (checks : Bool) (a b : UInt32) : Option UInt32 :=
  if a.toNat + b.toNat < 2 ^ 32 then some (a + b) else if checks then none else some (a + b)

/-- `((hi as u32) << 8) | (lo as u32)`. -/
def word32 (hi lo : UInt8) : UInt32 := hi.toUInt32 <<< 8 ||| lo.toUInt32

/-- The loop over the words, and the odd byte at the end. -/
def sumLoop (checks : Bool) (sum : UInt32) : List UInt8 → Option UInt32
  | [] => some sum
  | [b] => addU32 checks sum (b.toUInt32 <<< 8)
  | hi :: lo :: rest => do sumLoop checks (← addU32 checks sum (word32 hi lo)) rest

/-- The loop that folds the carries. `none`: it is not done after these turns. -/
def foldLoop (checks : Bool) (turns : Nat) (sum : UInt32) : Option UInt32 :=
  if sum >>> 16 = 0 then some sum
  else
    match turns with
    | 0 => none
    | turns + 1 => do foldLoop checks turns (← addU32 checks (sum &&& 0xFFFF) (sum >>> 16))

/-- `internet_checksum` in `u32`. -/
def checksumU32 (checks : Bool) (turns : Nat) (data : List UInt8) : Option UInt16 := do
  let sum ← sumLoop checks 0 data
  let sum ← foldLoop checks turns sum
  some (~~~ sum.toUInt16)

def typeEchoRequest : UInt8 := 8

/-- The message with these checksum bytes. -/
def echoWith (id seq : UInt16) (payload : List UInt8) (csumHi csumLo : UInt8) : List UInt8 :=
  [typeEchoRequest, 0, csumHi, csumLo, hiByte id, id.toUInt8, hiByte seq, seq.toUInt8] ++ payload

/-- `icmp::build_echo_request`. -/
def buildEchoRequest (id seq : UInt16) (payload : List UInt8) : List UInt8 :=
  let csum := internetChecksum (echoWith id seq payload 0 0)
  echoWith id seq payload (hiByte csum) csum.toUInt8

/-- The big-endian words of the data, an odd byte followed by 0. -/
def words : List UInt8 → List Nat
  | [] => []
  | [b] => [b.toNat * 256]
  | hi :: lo :: rest => (hi.toNat * 256 + lo.toNat) :: words rest

/-- Their ones' complement sum. -/
def onesSum (data : List UInt8) : Nat := (words data).foldl (add (2 ^ 16)) 0

variable {checks : Bool} {data l rest : List UInt8} {hi lo : UInt8} {a b s : UInt32}

/-! ## Words -/

theorem shift_or (hi lo : UInt8) : hi.toNat <<< 8 ||| lo.toNat = hi.toNat * 256 + lo.toNat := by
  rw [← Nat.shiftLeft_add_eq_or_of_lt lo.toNat_lt, Nat.shiftLeft_eq]

theorem toNat_word32 (hi lo : UInt8) : (word32 hi lo).toNat = hi.toNat * 256 + lo.toNat := by
  have hhi := hi.toNat_lt
  have hshift : (hi.toUInt32 <<< 8).toNat = hi.toNat <<< 8 := by
    rw [UInt32.toNat_shiftLeft, UInt8.toNat_toUInt32, Nat.mod_eq_of_lt]
    · rfl
    · change hi.toNat <<< 8 < 2 ^ 32
      rw [Nat.shiftLeft_eq]
      omega
  rw [word32, UInt32.toNat_or, hshift, UInt8.toNat_toUInt32, shift_or]

theorem toNat_shift8 (b : UInt8) : (b.toUInt32 <<< 8).toNat = b.toNat * 256 := by
  have h := toNat_word32 b 0
  rwa [word32, show (0 : UInt8).toUInt32 = 0 from rfl, UInt32.or_zero, UInt8.toNat_zero, Nat.add_zero] at h

theorem sumWords_eq (data : List UInt8) : sumWords data = (words data).sum := by
  induction data using words.induct with
  | case1 => rfl
  | case2 b => rw [sumWords, words, List.sum_singleton, Nat.shiftLeft_eq]
  | case3 hi lo rest ih => rw [sumWords, words, List.sum_cons, shift_or, ih]

theorem words_lt (data : List UInt8) : ∀ w ∈ words data, w < 2 ^ 16 := by
  induction data using words.induct with
  | case1 => nofun
  | case2 b =>
    have hb := b.toNat_lt
    simp only [words, List.mem_singleton, forall_eq]
    omega
  | case3 hi lo rest ih =>
    have hhi := hi.toNat_lt
    have hlo := lo.toNat_lt
    simp only [words, List.mem_cons, forall_eq_or_imp]
    exact ⟨by omega, ih⟩

theorem length_words (data : List UInt8) : (words data).length = (data.length + 1) / 2 := by
  induction data using words.induct with
  | case1 => rfl
  | case2 b => rw [words, List.length_singleton, List.length_singleton]
  | case3 hi lo rest ih =>
    simp only [words, List.length_cons, ih]
    omega

/-- So few words fit in the `u32`. -/
theorem sumWords_lt (h : data.length ≤ 65535) : sumWords data < 2 ^ 32 := by
  have hsum := List.sum_le_card_nsmul (words data) 65535 fun w hw => Nat.le_of_lt_succ (words_lt data w hw)
  rw [length_words, Nat.nsmul_eq_mul] at hsum
  have hlen : (data.length + 1) / 2 * 65535 ≤ 32768 * 65535 := Nat.mul_le_mul_right _ (by omega)
  rw [sumWords_eq]
  omega

/-- Words put in at an even place, where there were zeros, are added to the sum. -/
theorem sumWords_put (h : l.length % 2 = 0) (hi lo : UInt8) :
    sumWords (l ++ hi :: lo :: rest) = sumWords (l ++ 0 :: 0 :: rest) + (hi.toNat * 256 + lo.toNat) := by
  rw [sumWords_eq, sumWords_eq]
  induction l using words.induct with
  | case1 =>
    simp only [List.nil_append, words, List.sum_cons, UInt8.toNat_zero]
    omega
  | case2 b => cases h
  | case3 x y l ih =>
    simp only [List.length_cons] at h
    simp only [List.cons_append, words, List.sum_cons, ih (by omega)]
    omega

/-! ## What the sum stands for -/

theorem foldCarry_eq (sum : Nat) : foldCarry sum = digit (2 ^ 16) sum := by
  induction sum using foldCarry.induct with
  | case1 sum h => rw [foldCarry, if_pos h, digit_of_lt h]
  | case2 sum h ih =>
    rw [foldCarry, if_neg h, ih]
    exact digit_turn (by decide) sum

theorem onesSum_eq (data : List UInt8) : onesSum data = digit (2 ^ 16) (sumWords data) := by
  rw [onesSum, foldl_add (by decide) (words_lt data), sumWords_eq]

theorem internetChecksum_eq (data : List UInt8) : internetChecksum data = ~~~ UInt16.ofNat (onesSum data) := by
  rw [internetChecksum, foldCarry_eq, onesSum_eq]

theorem toNat_internetChecksum (data : List UInt8) :
    (internetChecksum data).toNat = 2 ^ 16 - 1 - digit (2 ^ 16) (sumWords data) := by
  have hlt : digit (2 ^ 16) (sumWords data) < 2 ^ 16 := digit_lt (by decide)
  rw [internetChecksum_eq, onesSum_eq, UInt16.toNat_not, UInt16.toNat_ofNat_of_lt' hlt]
  rfl

/-- Data with its checksum at an even place, where there were zeros before. -/
theorem internetChecksum_put (l rest : List UInt8) (h : l.length % 2 = 0) {csum : UInt16} (hc : csum = internetChecksum (l ++ 0 :: 0 :: rest)) :
    internetChecksum (l ++ hiByte csum :: csum.toUInt8 :: rest) = 0 := by
  have hbytes : (hiByte csum).toNat * 256 + csum.toUInt8.toNat = csum.toNat := by
    have hlt := csum.toNat_lt
    rw [hiByte, UInt16.toNat_toUInt8, UInt16.toNat_toUInt8, UInt16.toNat_shiftRight]
    change csum.toNat >>> 8 % 256 * 256 + csum.toNat % 256 = csum.toNat
    rw [Nat.shiftRight_eq_div_pow]
    omega
  rw [internetChecksum_eq, onesSum_eq, sumWords_put h, hbytes, hc, toNat_internetChecksum,
    digit_add_compl (by decide)]
  rfl

/-! ## The loops -/

theorem addU32_eq (checks : Bool) {a b : UInt32} (h : a.toNat + b.toNat < 2 ^ 32) :
    ∃ c, addU32 checks a b = some c ∧ c.toNat = a.toNat + b.toNat :=
  ⟨a + b, if_pos h, by rw [UInt32.toNat_add, Nat.mod_eq_of_lt h]⟩

theorem sumLoop_eq (checks : Bool) (h : s.toNat + sumWords data < 2 ^ 32) :
    ∃ r, sumLoop checks s data = some r ∧ r.toNat = s.toNat + sumWords data := by
  induction s, data using sumLoop.induct with
  | case1 s => exact ⟨s, rfl, rfl⟩
  | case2 s b =>
    have hb : sumWords [b] = (b.toUInt32 <<< 8).toNat := by rw [toNat_shift8, sumWords, Nat.shiftLeft_eq]
    rw [hb] at h ⊢
    exact addU32_eq checks h
  | case3 s hi lo rest ih =>
    have hcons : sumWords (hi :: lo :: rest) = (word32 hi lo).toNat + sumWords rest := by
      rw [toNat_word32, sumWords, shift_or]
    rw [hcons] at h ⊢
    have hfirst : s.toNat + (word32 hi lo).toNat < 2 ^ 32 := by omega
    obtain ⟨c, hc, hval⟩ := addU32_eq checks hfirst
    obtain ⟨r, hr, hsum⟩ := ih c (by omega)
    exact ⟨r, by rw [sumLoop, hc]; exact hr, by omega⟩

theorem shiftRight_eq_zero : s >>> 16 = 0 ↔ s.toNat < 2 ^ 16 := by
  rw [← UInt32.toNat_inj, UInt32.toNat_shiftRight, UInt32.toNat_zero]
  change s.toNat >>> 16 = 0 ↔ _
  rw [Nat.shiftRight_eq_div_pow, Nat.div_eq_zero_iff]
  omega

/-- A sum of one digit's length is left as it is. -/
theorem foldLoop_of_lt (h : s.toNat < 2 ^ 16) (turns : Nat) : foldLoop checks turns s = some s := by
  rw [foldLoop.eq_def, if_pos (shiftRight_eq_zero.mpr h)]

theorem foldLoop_turn (checks : Bool) (h : ¬ s.toNat < 2 ^ 16) (turns : Nat) :
    ∃ r, foldLoop checks (turns + 1) s = foldLoop checks turns r ∧ r.toNat = turn (2 ^ 16) s.toNat := by
  have hlow : (s &&& 0xFFFF).toNat = s.toNat % 2 ^ 16 := by
    rw [UInt32.toNat_and]
    exact Nat.and_two_pow_sub_one_eq_mod s.toNat 16
  have hhigh : (s >>> 16).toNat = s.toNat / 2 ^ 16 := by
    rw [UInt32.toNat_shiftRight]
    exact Nat.shiftRight_eq_div_pow s.toNat 16
  have hlt : (s &&& 0xFFFF).toNat + (s >>> 16).toNat < 2 ^ 32 := by
    have := s.toNat_lt
    omega
  obtain ⟨r, hr, hval⟩ := addU32_eq checks hlt
  refine ⟨r, ?_, by rw [hval, hlow, hhigh, turn]⟩
  rw [foldLoop, if_neg (mt shiftRight_eq_zero.mp h), hr]
  rfl

/-- Two turns are enough for every `u32`. -/
theorem foldLoop_eq (checks : Bool) (s : UInt32) : ∃ r, foldLoop checks 2 s = some r ∧ r.toNat = digit (2 ^ 16) s.toNat := by
  by_cases h₀ : s.toNat < 2 ^ 16
  · exact ⟨s, foldLoop_of_lt h₀ 2, (digit_of_lt h₀).symm⟩
  obtain ⟨r₁, hr₁, hval₁⟩ := foldLoop_turn checks h₀ 1
  have hdigit₁ : digit (2 ^ 16) r₁.toNat = digit (2 ^ 16) s.toNat := by rw [hval₁, digit_turn (by decide)]
  rw [hr₁]
  by_cases h₁ : r₁.toNat < 2 ^ 16
  · exact ⟨r₁, foldLoop_of_lt h₁ 1, by rw [← hdigit₁, digit_of_lt h₁]⟩
  obtain ⟨r₂, hr₂, hval₂⟩ := foldLoop_turn checks h₁ 0
  have h₂ : r₂.toNat < 2 ^ 16 := by
    rw [hval₂, hval₁]
    exact turn_turn_lt (by decide) s.toNat_lt
  rw [hr₂]
  exact ⟨r₂, foldLoop_of_lt h₂ 0, by rw [← hdigit₁, ← digit_turn (by decide) r₁.toNat, ← hval₂, digit_of_lt h₂]⟩

theorem checksumU32_eq (h : data.length ≤ 65535) : checksumU32 checks 2 data = some (internetChecksum data) := by
  have hlt : (0 : UInt32).toNat + sumWords data < 2 ^ 32 := by
    rw [UInt32.toNat_zero, Nat.zero_add]
    exact sumWords_lt h
  obtain ⟨s, hs, hsum⟩ := sumLoop_eq checks hlt
  obtain ⟨r, hr, hval⟩ := foldLoop_eq checks s
  rw [UInt32.toNat_zero, Nat.zero_add] at hsum
  have hr16 : r.toUInt16 = UInt16.ofNat (onesSum data) := by
    rw [onesSum_eq, ← hsum, ← hval]
    rfl
  simp only [checksumU32, hs, hr, hr16, internetChecksum_eq, Option.bind_eq_bind, Option.bind_some]

/-! ## What is built -/

theorem internetChecksum_buildHeader (proto : UInt8) (src dst : Ip) (totalLen id : UInt16) :
    internetChecksum (buildHeader proto src dst totalLen id) = 0 :=
  internetChecksum_put
    [0x45, 0x00, hiByte totalLen, totalLen.toUInt8, hiByte id, id.toUInt8, 0x40, 0x00, 64, proto]
    (src.toList ++ dst.toList) (by simp) rfl

theorem internetChecksum_buildEchoRequest (id seq : UInt16) (payload : List UInt8) :
    internetChecksum (buildEchoRequest id seq payload) = 0 :=
  internetChecksum_put [typeEchoRequest, 0]
    ([hiByte id, id.toUInt8, hiByte seq, seq.toUInt8] ++ payload) (by simp) rfl

theorem length_buildEchoRequest (id seq : UInt16) (payload : List UInt8) :
    (buildEchoRequest id seq payload).length = 8 + payload.length := by
  simp only [buildEchoRequest, echoWith, List.length_append, List.length_cons, List.length_nil]

/-- The checksum of a header with its checksum in it is 0, and so is that of
an echo request; the sum neither overflows nor takes more than two turns to
fold, and is the ones' complement sum of the words. -/
theorem checksums_verify (checks : Bool) :
    (∀ (proto : UInt8) (src dst : Ip) (totalLen id : UInt16),
      checksumU32 checks 2 (buildHeader proto src dst totalLen id) = some 0) ∧
    (∀ (id seq : UInt16) (payload : List UInt8), payload.length ≤ 65507 →
      checksumU32 checks 2 (buildEchoRequest id seq payload) = some 0) ∧
    ∀ data : List UInt8, data.length ≤ 65535 →
      checksumU32 checks 2 data = some (~~~ UInt16.ofNat (onesSum data)) := by
  refine ⟨fun proto src dst totalLen id => ?_, fun id seq payload h => ?_, fun data h => ?_⟩
  · rw [checksumU32_eq (by rw [length_buildHeader]; decide), internetChecksum_buildHeader]
  · rw [checksumU32_eq (by rw [length_buildEchoRequest]; omega), internetChecksum_buildEchoRequest]
  · rw [checksumU32_eq h, internetChecksum_eq]

/-- The request that `ping` sends first. -/
theorem checksums_verify_ping :
    checksumU32 true 2 (buildEchoRequest 0x4D55 0 [77, 117, 75, 101, 114, 110, 101, 108, 33]) = some 0 ∧
      checksumU32 true 2 [0xFF, 0xFF, 0x01] = some (~~~ UInt16.ofNat (onesSum [0xFF, 0xFF, 0x01])) :=
  ⟨(checksums_verify true).2.1 0x4D55 0 _ (by decide), (checksums_verify true).2.2 _ (by decide)⟩

end ChodOs.Net
