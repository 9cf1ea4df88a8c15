import Ticoin.ScriptNum
import Ticoin.Validation

/-!
# The height in a coinbase

A block starts its coinbase with the script that pushes its height. The first byte of such a script
tells how long it is (`pushInt64_split`), and a number is read back from its bytes
(`ofLeBytes_scriptNumSerialize`). So no height's script is a prefix of another's, and coinbases of
blocks at different heights differ (`coinbases_differ`).
-/

namespace Ticoin

open Codec

/-! ## Numbers -/

/-- A number that is not negative is read back from its bytes. -/
theorem ofLeBytes_scriptNumSerialize (n : ℕ) : ofLeBytes (scriptNumSerialize n) = n := by
  have hneg : ¬(n : ℤ) < 0 := by omega
  have hdigits := ofLeBytes_digits n
  rw [scriptNumSerialize, Int.natAbs_natCast]
  generalize (Nat.digits 256 n).map UInt8.ofNat = absvalue at hdigits
  cases hlast : absvalue.getLast? with
  | none =>
    rw [List.getLast?_eq_none_iff.mp hlast] at hdigits
    exact hdigits
  | some back =>
    dsimp only
    rw [if_neg hneg, if_neg hneg]
    split
    · -- the zero byte that keeps the number positive adds nothing
      rw [CScriptNum.ofLeBytes_concat, hdigits]
      rfl
    · exact hdigits

theorem scriptNumSerialize_inj {m n : ℕ} (h : scriptNumSerialize m = scriptNumSerialize n) :
    m = n := by
  rw [← ofLeBytes_scriptNumSerialize m, h, ofLeBytes_scriptNumSerialize]

/-! ## Scripts that push a number -/

theorem byte_inj {a b : ℕ} (ha : a < 256) (hb : b < 256) (h : UInt8.ofNat a = UInt8.ofNat b) :
    a = b := by
  have hbyte := congrArg UInt8.toNat h
  rwa [UInt8.toNat_ofNat', UInt8.toNat_ofNat', Nat.mod_eq_of_lt ha, Nat.mod_eq_of_lt hb] at hbyte

/-- How many bytes follow the first one of a short push. -/
def pushedAfter (opcode : UInt8) : ℕ := if opcode < OP_PUSHDATA1 then opcode.toNat else 0

section

variable {m n : ℕ}

/-- A number up to 16 is pushed by an opcode of its own, and another one as its bytes. -/
theorem pushInt64_cases (h : n < 2 ^ 32) :
    ((1 ≤ n ∧ n ≤ 16) ∧ pushInt64 n = [UInt8.ofNat (n + 80)]) ∨
    ¬(1 ≤ n ∧ n ≤ 16) ∧ (scriptNumSerialize n).length ≤ 5 ∧
      pushInt64 n = UInt8.ofNat (scriptNumSerialize n).length :: scriptNumSerialize n := by
  have hlen : (scriptNumSerialize n).length ≤ 5 :=
    length_scriptNumSerialize_le (by rwa [Int.natAbs_natCast])
  unfold pushInt64
  by_cases hsmall : 1 ≤ n ∧ n ≤ 16
  · refine .inl ⟨hsmall, ?_⟩
    have hop : ((n : ℤ) + (OP_1.toNat - 1)).toNat = n + 80 := by
      rw [show (OP_1.toNat : ℤ) = 81 from rfl]
      omega
    rw [if_pos (by omega), hop]
  · refine .inr ⟨hsmall, hlen, ?_⟩
    have hshort : (scriptNumSerialize n).length < OP_PUSHDATA1.toNat :=
      lt_of_le_of_lt hlen (by decide)
    unfold pushVector
    rw [if_neg (by omega), if_pos hshort]

/-- The first byte tells how long the script is. -/
theorem pushInt64_split (h : n < 2 ^ 32) :
    ∃ opcode data, pushInt64 n = opcode :: data ∧ data.length = pushedAfter opcode := by
  rcases pushInt64_cases h with ⟨hsmall, hpush⟩ | ⟨-, hlen, hpush⟩
  · refine ⟨_, _, hpush, ?_⟩
    obtain ⟨hpos, hle⟩ := hsmall
    have hop : (UInt8.ofNat (n + 80)).toNat = n + 80 := by
      rw [UInt8.toNat_ofNat', Nat.mod_eq_of_lt (by omega)]
    have hnot : ¬UInt8.ofNat (n + 80) < OP_PUSHDATA1 := by
      rw [UInt8.lt_iff_toNat_lt, hop, show OP_PUSHDATA1.toNat = 76 from rfl]
      omega
    unfold pushedAfter
    rw [if_neg hnot, List.length_nil]
  · refine ⟨_, _, hpush, ?_⟩
    have hop :
        (UInt8.ofNat (scriptNumSerialize n).length).toNat = (scriptNumSerialize n).length := by
      rw [UInt8.toNat_ofNat', Nat.mod_eq_of_lt (by omega)]
    have hbelow : UInt8.ofNat (scriptNumSerialize n).length < OP_PUSHDATA1 := by
      rw [UInt8.lt_iff_toNat_lt, hop, show OP_PUSHDATA1.toNat = 76 from rfl]
      omega
    unfold pushedAfter
    rw [if_pos hbelow, hop]

theorem pushInt64_inj (hm : m < 2 ^ 32) (hn : n < 2 ^ 32) (h : pushInt64 m = pushInt64 n) :
    m = n := by
  rcases pushInt64_cases hm with ⟨hsmallM, hpushM⟩ | ⟨hlargeM, hlenM, hpushM⟩ <;>
    rcases pushInt64_cases hn with ⟨hsmallN, hpushN⟩ | ⟨hlargeN, hlenN, hpushN⟩ <;>
    rw [hpushM, hpushN] at h
  · have hop := byte_inj (by omega) (by omega) (List.head_eq_of_cons_eq h)
    omega
  · have hop := byte_inj (by omega) (by omega) (List.head_eq_of_cons_eq h)
    omega
  · have hop := byte_inj (by omega) (by omega) (List.head_eq_of_cons_eq h)
    omega
  · exact scriptNumSerialize_inj (List.tail_eq_of_cons_eq h)

/-- The script that pushes a number starts with no other one. -/
theorem eq_of_pushInt64_append (hm : m < 2 ^ 32) (hn : n < 2 ^ 32)
    (h : pushInt64 m <+: pushInt64 n) : m = n := by
  obtain ⟨opM, dataM, hpushM, hlenM⟩ := pushInt64_split hm
  obtain ⟨opN, dataN, hpushN, hlenN⟩ := pushInt64_split hn
  refine pushInt64_inj hm hn ?_
  rw [hpushM, hpushN] at h ⊢
  obtain ⟨hop, hdata⟩ := List.cons_prefix_cons.mp h
  rw [hop, hdata.eq_of_length (by rw [hlenM, hlenN, hop])]

end

/-! ## Coinbases -/

theorem coinbaseScript_of_checkCoinbaseHeight {block : CBlock} {nHeight : ℕ}
    (h : checkCoinbaseHeight block nHeight = .ok ()) :
    ∃ scriptSig, block.coinbaseScript = .ok scriptSig ∧ pushInt64 nHeight <+: scriptSig := by
  unfold checkCoinbaseHeight at h
  cases hscript : block.coinbaseScript with
  | error e =>
    rw [hscript] at h
    cases h
  | ok scriptSig =>
    rw [hscript] at h
    have hstarts := stopIf_eq_ok.mp h
    rw [not_not] at hstarts
    exact ⟨scriptSig, rfl, List.isPrefixOf_iff_prefix.mp hstarts⟩

/-- The scripts of different heights are not prefixes of each other, and coinbases that pass the
check at different heights have different scripts. -/
theorem coinbases_differ {m n : ℕ} (hm : m < 2 ^ 31) (hn : n < 2 ^ 31) (hne : m ≠ n) :
    ¬pushInt64 m <+: pushInt64 n ∧ ¬pushInt64 n <+: pushInt64 m ∧
    ∀ block block' : CBlock, checkCoinbaseHeight block m = .ok () →
      checkCoinbaseHeight block' n = .ok () → ∃ scriptSig scriptSig',
        block.coinbaseScript = .ok scriptSig ∧ block'.coinbaseScript = .ok scriptSig' ∧
        scriptSig ≠ scriptSig' := by
  have hm' : m < 2 ^ 32 := by omega
  have hn' : n < 2 ^ 32 := by omega
  refine ⟨fun h => hne (eq_of_pushInt64_append hm' hn' h),
    fun h => hne (eq_of_pushInt64_append hn' hm' h).symm, fun block block' hcheck hcheck' => ?_⟩
  obtain ⟨scriptSig, hscript, hstarts⟩ := coinbaseScript_of_checkCoinbaseHeight hcheck
  obtain ⟨scriptSig', hscript', hstarts'⟩ := coinbaseScript_of_checkCoinbaseHeight hcheck'
  refine ⟨scriptSig, scriptSig', hscript, hscript', ?_⟩
  rintro rfl
  -- of two prefixes of one script the shorter one is a prefix of the other
  rcases List.prefix_or_prefix_of_prefix hstarts hstarts' with h | h
  · exact hne (eq_of_pushInt64_append hm' hn' h)
  · exact hne (eq_of_pushInt64_append hn' hm' h).symm

/-- The last height with an opcode of its own and the one after it. -/
theorem coinbases_differ_sixteen : ¬pushInt64 (16 : ℕ) <+: pushInt64 (17 : ℕ) :=
  (coinbases_differ (by decide) (by decide) (by decide)).1

end Ticoin
