import Ticoin.Base58
import Ticoin.Destinations

/-!
# base58.cpp : texts, and addresses

What `DecodeBase58` reads are ones and digits to the base 58, with white space around them
(`decodeBase58_spec`). So the space for the number always suffices, and a text that is accepted is
what its bytes are written as (`encodeBase58_of_decodeBase58`).

Addresses of keys and scripts are data with a version, as secrets are. All are read back from their
texts as what they were set to (`base58_inverse`).
-/

namespace Ticoin

open Codec

/-! ## Texts -/

theorem idxOf_pszBase58 (c : UInt8) : ∀ d, pszBase58.idxOf? c = some d →
    d < 58 ∧ pszBase58.getD d 0 = c := by
  intro d hd
  obtain ⟨hlt, hat, -⟩ := List.idxOf?_eq_some_iff.mp hd
  refine ⟨hlt.trans_le (Nat.le_of_eq (congrArg List.length pszBase58_eq)), ?_⟩
  rw [List.getD_eq_getElem _ _ hlt]
  exact hat

/-- A text is digits, and then nothing, white space or another character. -/
theorem exists_digits58 : ∀ psz : Bytes, ∃ (ds : List ℕ) (rest : Bytes),
    psz = ds.map (fun d => pszBase58.getD d 0) ++ rest ∧ (∀ d ∈ ds, d < 58) ∧
      ((∀ b256, decodeBase58Loop rest b256 = some none) ∨
        ∀ b256, decodeBase58Loop rest b256 = some (some (b256, rest)))
  | [] => ⟨[], [], rfl, nofun, .inr fun _ => rfl⟩
  | c :: psz => by
    by_cases hspace : isSpace c = true
    · refine ⟨[], c :: psz, rfl, nofun, .inr fun b256 => ?_⟩
      unfold decodeBase58Loop
      rw [if_pos hspace]
    · cases hdigit : pszBase58.idxOf? c with
      | none =>
        refine ⟨[], c :: psz, rfl, nofun, .inl fun b256 => ?_⟩
        unfold decodeBase58Loop
        rw [if_neg hspace, hdigit]
      | some d =>
        obtain ⟨hd, hc⟩ := idxOf_pszBase58 c d hdigit
        obtain ⟨ds, rest, rfl, hds, hrest⟩ := exists_digits58 psz
        exact ⟨d :: ds, rest, by rw [List.map_cons, hc, List.cons_append],
          List.forall_mem_cons.mpr ⟨hd, hds⟩, hrest⟩

/-- The loop reads digits and goes on behind them. -/
theorem decodeBase58Loop_append {rest : Bytes} : ∀ {ds b256 : List ℕ}, (∀ d ∈ ds, d < 58) →
    decodeBase58Loop (ds.map (fun d => pszBase58.getD d 0) ++ rest) b256 =
      (Radix.convert 256 58 ds b256).bind (decodeBase58Loop rest)
  | [], b256, _ => rfl
  | d :: ds, b256, h => by
    obtain ⟨hd, hds⟩ := List.forall_mem_cons.mp h
    obtain ⟨hmem, hdigit, -⟩ := base58_digit hd
    rw [List.map_cons, List.cons_append]
    conv_lhs => unfold decodeBase58Loop
    unfold Radix.convert
    rw [if_neg (by rw [(base58_char _ hmem).1]; exact Bool.false_ne_true), hdigit]
    dsimp only
    split
    · exact decodeBase58Loop_append hds
    · rfl

/-- The digits behind the ones do not start with zero. -/
theorem digits58_front {ds : List ℕ} (rest : Bytes) (h : ∀ d ∈ ds, d < 58)
    (hones : (ds.map (fun d => pszBase58.getD d 0) ++ rest).dropWhile (· = 49) =
      ds.map (fun d => pszBase58.getD d 0) ++ rest) : ds.dropWhile (· = 0) = ds := by
  cases ds with
  | nil => rfl
  | cons d ds =>
    refine List.dropWhile_cons_of_neg ?_
    rw [decide_eq_true_eq]
    intro hd
    have hone := (base58_digit (h d List.mem_cons_self)).2.2.mpr hd
    rw [List.map_cons, List.cons_append, hone, List.dropWhile_cons_of_pos (by rfl)] at hones
    have hlen := (List.dropWhile_sublist (· = 49)
      (l := ds.map (fun d => pszBase58.getD d 0) ++ rest)).length_le
    rw [hones, List.length_cons] at hlen
    omega

/-- A text is white space, ones, digits and something else. It is accepted if this is white space,
as zeros and the number of the digits. -/
theorem decodeBase58_spec (psz : Bytes) : ∃ (z : ℕ) (ds : List ℕ) (rest : Bytes),
    psz.dropWhile isSpace =
      List.replicate z 49 ++ (ds.map (fun d => pszBase58.getD d 0) ++ rest) ∧
    (∀ d ∈ ds, d < 58) ∧ ds.dropWhile (· = 0) = ds ∧
    (decodeBase58 psz = some none ∨ rest.dropWhile isSpace = [] ∧
      decodeBase58 psz = some (some (List.replicate z 0 ++
        (Nat.digits 256 (Radix.value 58 ds)).reverse.map UInt8.ofNat))) := by
  obtain ⟨ds, rest, hdigits, hlt, hrest⟩ :=
    exists_digits58 ((psz.dropWhile isSpace).dropWhile (· = 49))
  have hsplit : psz.dropWhile isSpace =
      List.replicate ((psz.dropWhile isSpace).takeWhile (· = 49)).length 49 ++
        (ds.map (fun d => pszBase58.getD d 0) ++ rest) := by
    rw [← hdigits, ← Radix.takeWhile_eq_replicate, List.takeWhile_append_dropWhile]
  refine ⟨_, ds, rest, hsplit, hlt, ?_, ?_⟩
  · refine digits58_front rest hlt ?_
    rw [← hdigits, List.dropWhile_idempotent]
  · obtain ⟨b256, hb256, hbytes⟩ := Radix.convert_eq_digits (b := 256) (m := 58) (p := 1000)
      (q := 733) (n := ((psz.dropWhile isSpace).dropWhile (· = 49)).length * 733 / 1000 + 1)
      (by decide) (by decide) (by decide) (by decide +kernel) (by
        rw [hdigits, List.length_append, List.length_map]
        have hle : ds.length * 733 / 1000 ≤ (ds.length + rest.length) * 733 / 1000 :=
          Nat.div_le_div_right (Nat.mul_le_mul_right _ (Nat.le_add_right _ _))
        exact Nat.succ_le_succ hle) hlt
    have hloop : decodeBase58Loop ((psz.dropWhile isSpace).dropWhile (· = 49))
        (List.replicate (((psz.dropWhile isSpace).dropWhile (· = 49)).length * 733 / 1000 + 1) 0) =
          decodeBase58Loop rest b256 := by
      refine (congrArg (decodeBase58Loop · _) hdigits).trans ?_
      rw [decodeBase58Loop_append hlt, hb256, Option.bind_some]
    unfold decodeBase58
    dsimp only
    rw [hloop]
    obtain hnone | hsome := hrest
    · rw [hnone]
      exact .inl rfl
    · rw [hsome]
      dsimp only
      by_cases hspace : rest.dropWhile isSpace = []
      · rw [if_neg (not_not.mpr hspace), hbytes]
        exact .inr ⟨hspace, rfl⟩
      · exact .inl (if_pos hspace)

/-- Behind characters of the alphabet, white space is cut off. -/
theorem rdropWhile_append_of_forall {str rest : Bytes} (hrest : ∀ c ∈ rest, isSpace c = true)
    (hstr : ∀ c ∈ str, c ∈ pszBase58) : (str ++ rest).rdropWhile isSpace = str := by
  have hself : str.reverse.dropWhile isSpace = str.reverse :=
    List.dropWhile_eq_self_iff.mpr fun hpos => by
      rw [(base58_char _ (hstr _ (List.mem_reverse.mp (List.getElem_mem hpos)))).1]
      exact Bool.false_ne_true
  rw [List.rdropWhile, List.reverse_append, List.dropWhile_append_of_pos fun c hc =>
    hrest c (List.mem_reverse.mp hc), hself, List.reverse_reverse]

/-- A text without the white space around it. -/
def trimSpaces (str : Bytes) : Bytes := (str.dropWhile isSpace).rdropWhile isSpace

/-- The digits of a number as bytes do not start with zero. -/
theorem bytes_front (n : ℕ) : ((Nat.digits 256 n).reverse.map UInt8.ofNat).dropWhile (· = 0) =
      (Nat.digits 256 n).reverse.map UInt8.ofNat ∧
    ((Nat.digits 256 n).reverse.map UInt8.ofNat).map UInt8.toNat = (Nat.digits 256 n).reverse := by
  have htoNat : ((Nat.digits 256 n).reverse.map UInt8.ofNat).map UInt8.toNat =
      (Nat.digits 256 n).reverse := by
    rw [List.map_map]
    refine (List.map_congr_left fun d hd => UInt8.toNat_ofNat_of_lt ?_).trans (List.map_id _)
    exact Nat.digits_lt_base (by decide) (List.mem_reverse.mp hd)
  refine ⟨?_, htoNat⟩
  have hzero : (fun c : UInt8 => decide (c = 0)) = (fun d => decide (d = 0)) ∘ UInt8.toNat := by
    funext c
    simp only [Function.comp_apply, ← UInt8.toNat_inj, UInt8.toNat_zero]
  refine List.map_injective_iff.mpr (fun _ _ => UInt8.toNat.inj) ?_
  rw [hzero, ← List.dropWhile_map, htoNat]
  exact Radix.digits_dropWhile (by decide) n

/-- A text that is accepted is what its bytes are written as. -/
theorem encodeBase58_of_decodeBase58 {psz vch : Bytes} (h : decodeBase58 psz = some (some vch)) :
    encodeBase58 vch = some (trimSpaces psz) := by
  obtain ⟨z, ds, rest, hsplit, hlt, hfront, hdecode⟩ := decodeBase58_spec psz
  rw [h] at hdecode
  obtain hdecode | ⟨hspace, hdecode⟩ := hdecode
  · cases hdecode
  obtain rfl := Option.some_inj.mp (Option.some_inj.mp hdecode)
  obtain ⟨hbytes, htoNat⟩ := bytes_front (Radix.value 58 ds)
  set bytes := (Nat.digits 256 (Radix.value 58 ds)).reverse.map UInt8.ofNat
  have hzeros : ∀ c ∈ List.replicate z (0 : UInt8), decide (c = 0) = true := fun c hc =>
    decide_eq_true (List.eq_of_mem_replicate hc)
  have htake : bytes.takeWhile (· = 0) = [] := by
    have hsum := List.takeWhile_append_dropWhile (p := (· = 0)) (l := bytes)
    rwa [hbytes, List.append_left_eq_self] at hsum
  rw [encodeBase58_eq, List.takeWhile_append_of_pos hzeros, htake, List.append_nil,
    List.length_replicate, List.dropWhile_append_of_pos hzeros, hbytes, htoNat, Radix.value_digits,
    ← Radix.dropWhile_eq_digits (by decide) hlt, hfront, trimSpaces, hsplit, ← List.append_assoc,
    rdropWhile_append_of_forall (List.dropWhile_eq_nil_iff.mp hspace)]
  exact (base58_text hlt hfront z).2

/-! ## Addresses -/

namespace CticoinAddress

variable (network : Network)

/-- An address of a script. -/
def ofScriptID (id : UInt160) : CBase58Data :=
  ⟨base58Prefix network .scriptAddress, leBytes 20 id.toNat⟩

/-- `Set` : whether it is set, and the address. -/
def set (addr : CBase58Data) : CTxDestination → Bool × CBase58Data
  | .keyID id => (true, ofKeyID network id)
  | .scriptID id => (true, ofScriptID network id)
  | .noDestination => (false, addr)

def isValid (addr : CBase58Data) : Bool :=
  let fCorrectSize := addr.vchData.length == 20
  let fKnownVersion := addr.vchVersion == base58Prefix network .pubkeyAddress ||
    addr.vchVersion == base58Prefix network .scriptAddress
  fCorrectSize && fKnownVersion

/-- `Get`. -/
def get (addr : CBase58Data) : CTxDestination :=
  if !isValid network addr then .noDestination
  else
    let id := uint160 addr.vchData
    if addr.vchVersion = base58Prefix network .pubkeyAddress then .keyID id
    else if addr.vchVersion = base58Prefix network .scriptAddress then .scriptID id
    else .noDestination

/-- `SetString`. -/
def setString (H : Bytes → UInt256) (str : Bytes) : Option (Bool × CBase58Data) :=
  CBase58Data.setString H (cStr str) 1

theorem uint160_leBytes (id : UInt160) : uint160 (leBytes 20 id.toNat) = id := by
  unfold uint160
  rw [ofLeBytes_leBytes_of_lt id.isLt, BitVec.ofNat_toNat, BitVec.setWidth_eq]

/-- What an address was set to is what it is of. -/
theorem get_set (addr : CBase58Data) {dest : CTxDestination} (h : dest ≠ .noDestination) :
    (set network addr dest).1 = true ∧ get network (set network addr dest).2 = dest ∧
      (set network addr dest).2.vchVersion.length = 1 := by
  cases dest with
  | noDestination => exact absurd rfl h
  | keyID id =>
    refine ⟨rfl, ?_, by cases network <;> rfl⟩
    simp [set, get, ofKeyID, isValid, length_leBytes, uint160_leBytes]
  | scriptID id =>
    have hversion : base58Prefix network .scriptAddress ≠ base58Prefix network .pubkeyAddress := by
      cases network <;> decide
    refine ⟨rfl, ?_, by cases network <;> rfl⟩
    simp [set, get, ofScriptID, isValid, length_leBytes, uint160_leBytes, hversion]

/-- An address is read back from its text. -/
theorem setString_toString {H : Bytes → UInt256} {addr : CBase58Data}
    (h : addr.vchVersion.length = 1) :
    ∃ str, addr.toString H = some str ∧ setString H str = some (true, addr) := by
  obtain ⟨str, hstr, hmem, hset⟩ := CBase58Data.setString_toString (H := H) addr
  refine ⟨str, hstr, ?_⟩
  unfold setString
  rw [cStr_eq hmem, ← h, hset]

end CticoinAddress

end Ticoin
