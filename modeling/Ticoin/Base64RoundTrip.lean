import Ticoin.Base64

/-!
# Round trips of Base64 and Base32

Both encodings are instances of one (`BaseCodec.Sound`). What was encoded is decoded, and no
character behind the end of a text is read (`decode_encode_base64_base32`). But behind the `=`, and
where there need be none, the decoders only ask that no character of the alphabet follows. So they
flag all texts that are not encodings except those that continue an encoding with another character
(`flags_iff`).
-/

namespace Ticoin

open Codec Radix Regroup

/-! ## What both encodings have in common -/

namespace BaseCodec

/-- What relates an alphabet and steps : characters have `w` bits, the modes have the bits in
tables, `padding` tells the number of `=` from the number of zeros in the last character, and
characters with one `norm` are read alike. -/
structure Sound (B : BaseCodec) (w : ℕ) (padding : ℕ → ℕ) (norm : UInt8 → UInt8) : Prop where
  width_pos : 0 < w
  width_lt : w < 8
  length_alphabet : B.alphabet.length = 2 ^ w
  exists_char : ∀ i < 2 ^ w, ∃ c, B.alphabet[i]? = some c ∧ B.place c = some i
  alphabet_place : ∀ c i, B.place c = some i → i < 2 ^ w ∧ B.alphabet[i]? = some (norm c)
  place_pad : B.place 61 = none
  place_zero : B.place 0 = none
  place_norm : ∀ c, B.place (norm c) = B.place c
  norm_eq_pad : ∀ c, norm c = 61 ↔ c = 61
  padding_zero : padding 0 = 0
  encode_steps : ∃ bits, Steps 8 w B.encodeStep (Keeps bits fun k => 2 ^ (w - k)) ∧
    bits[0]? = some 0 ∧ ∀ mode k, bits[mode]? = some k → mode ≠ 0 →
      0 < k ∧ k < w ∧ B.nPadding[mode]? = some (padding (w - k))
  decode_steps : ∃ bits, Steps w 8 B.decodeStep (Keeps bits fun _ => 1) ∧
    bits[0]? = some 0 ∧ ∀ mode k, bits[mode]? = some k → mode ≠ 0 →
      k < 8 ∧ B.required[mode]? = some (if k < w then some (padding k) else none)

/-- A text is an encoding of some bytes, up to `norm`. -/
def IsEncoding (B : BaseCodec) (norm : UInt8 → UInt8) (s : Bytes) : Prop :=
  ∃ x, B.encode x = some (s.map norm)

/-- A text does not begin with a character of the alphabet. -/
def Stops (B : BaseCodec) (t : Bytes) : Prop := ∀ c ∈ t.head?, B.place c = none

variable {B : BaseCodec} {w : ℕ} {padding : ℕ → ℕ} {norm : UInt8 → UInt8}

/-- A character that is read has a place in the table. -/
theorem mem_table_of_place {c : UInt8} {i : ℕ} (h : B.place c = some i) :
    ∃ dec, (dec, c.toNat) ∈ B.table.zipIdx ∧ dec ≠ -1 ∧ dec.toNat = i := by
  unfold place at h
  dsimp only at h
  by_cases hdec : B.table.getD c.toNat (-1) = -1
  · rw [if_pos hdec] at h
    cases h
  · rw [if_neg hdec] at h
    refine ⟨_, List.mk_mem_zipIdx_iff_getElem?.mpr ?_, hdec, Option.some_inj.mp h⟩
    rw [List.getD_eq_getElem?_getD] at hdec ⊢
    cases hat : B.table[c.toNat]? with
    | none =>
      rw [hat] at hdec
      exact absurd rfl hdec
    | some dec => rfl

/-- The characters at some places, and that they are read so. -/
theorem Sound.chars_eq (h : Sound B w padding norm) : ∀ {places : List ℕ},
    (∀ i ∈ places, i < 2 ^ w) →
    ∃ cs, B.chars places = some cs ∧ cs.map B.place = places.map some
  | [], _ => ⟨[], rfl, rfl⟩
  | i :: places, hlt => by
    obtain ⟨hi, hlt⟩ := List.forall_mem_cons.mp hlt
    obtain ⟨c, hc, hplace⟩ := h.exists_char i hi
    obtain ⟨cs, hcs, hplaces⟩ := h.chars_eq hlt
    refine ⟨c :: cs, ?_, ?_⟩
    · unfold chars at hcs ⊢
      rw [List.mapM_cons, hc, hcs]
      rfl
    · rw [List.map_cons, List.map_cons, hplace, hplaces]

/-- What is read as some places is, up to `norm`, the characters at them. -/
theorem Sound.chars_of_places (h : Sound B w padding norm) : ∀ {cs : Bytes} {places : List ℕ},
    cs.map B.place = places.map some →
    B.chars places = some (cs.map norm) ∧ ∀ i ∈ places, i < 2 ^ w
  | [], [], _ => ⟨rfl, nofun⟩
  | c :: cs, i :: places, hplaces => by
    obtain ⟨hplace, hplaces⟩ := List.cons_eq_cons.mp hplaces
    obtain ⟨hchars, hlt⟩ := h.chars_of_places hplaces
    obtain ⟨hi, hc⟩ := h.alphabet_place c i hplace
    refine ⟨?_, List.forall_mem_cons.mpr ⟨hi, hlt⟩⟩
    unfold chars at hchars ⊢
    rw [List.mapM_cons, hc, hchars]
    rfl

/-- The characters that are not read are those that are not in the alphabet, up to `norm`. -/
theorem Sound.place_eq_none (h : Sound B w padding norm) (c : UInt8) :
    B.place c = none ↔ norm c ∉ B.alphabet := by
  refine ⟨fun hplace hmem => ?_, fun hmem => ?_⟩
  · obtain ⟨i, hi⟩ := List.mem_iff_getElem?.mp hmem
    obtain ⟨hlt, -⟩ := List.getElem?_eq_some_iff.mp hi
    obtain ⟨c', hc', hplace'⟩ := h.exists_char i (h.length_alphabet ▸ hlt)
    obtain rfl := Option.some_inj.mp (hi.symm.trans hc')
    rw [h.place_norm, hplace] at hplace'
    cases hplace'
  · by_contra hplace
    obtain ⟨i, hi⟩ := Option.ne_none_iff_exists'.mp hplace
    exact hmem (List.mem_of_getElem? (h.alphabet_place c i hi).2)

/-- A text is a list of characters of the alphabet, and then something else. -/
theorem exists_places (B : BaseCodec) : ∀ s : Bytes,
    ∃ (cs : Bytes) (places : List ℕ) (rest : Bytes),
      s = cs ++ rest ∧ cs.map B.place = places.map some ∧ B.Stops rest
  | [] => ⟨[], [], [], rfl, rfl, nofun⟩
  | c :: s => by
    cases hplace : B.place c with
    | none => exact ⟨[], [], c :: s, rfl, rfl, fun d hd => Option.some_inj.mp hd ▸ hplace⟩
    | some i =>
      obtain ⟨cs, places, rest, rfl, hplaces, hstops⟩ := exists_places B s
      exact ⟨c :: cs, i :: places, rest, rfl, by rw [List.map_cons, List.map_cons, hplace, hplaces],
        hstops⟩

/-! ## Encoding -/

theorem map_toNat_lt (x : Bytes) : ∀ d ∈ x.map UInt8.toNat, d < 2 ^ 8 := fun d hd => by
  obtain ⟨c, -, rfl⟩ := List.mem_map.mp hd
  exact c.toNat_lt

/-- An encoding is the characters of a number, followed by the `=` that belong to them. -/
theorem Sound.encode_spec (h : Sound B w padding norm) (x : Bytes) :
    ∃ (places : List ℕ) (p : ℕ) (cs : Bytes),
    B.encode x = some (cs ++ List.replicate (padding p) 61) ∧ B.chars places = some cs ∧
      cs.map B.place = places.map some ∧ p < w ∧ w * places.length = 8 * x.length + p ∧
      value (2 ^ w) places = value (2 ^ 8) (x.map UInt8.toNat) * 2 ^ p := by
  obtain ⟨bits, hsteps, hzero, hmodes⟩ := h.encode_steps
  obtain ⟨outs, mode, left, k, pending, hrun, ⟨hbits, hpending, hleft⟩, houts, hlen, hvalue⟩ :=
    run_spec hsteps ⟨hzero, Nat.one_pos, fun hne => absurd rfl hne⟩ (map_toNat_lt x)
  rw [List.length_map, Nat.zero_add] at hlen
  rw [Nat.zero_mul, Nat.zero_add] at hvalue
  obtain ⟨cs, hcs, hplaces⟩ := h.chars_eq houts
  by_cases hmode : mode = 0
  · subst hmode
    obtain rfl := Option.some_inj.mp (hzero.symm.trans hbits)
    have hnone : pending = 0 := by omega
    rw [hnone] at hvalue
    refine ⟨outs, 0, cs, ?_, hcs, hplaces, h.width_pos, hlen, by rw [← hvalue]; ring⟩
    unfold encode
    rw [hrun]
    dsimp only
    rw [hcs, Option.bind_eq_bind, Option.bind_some, if_neg (not_not.mpr rfl), h.padding_zero,
      List.replicate_zero, List.append_nil]
  · obtain ⟨hpos, hlt, hpadding⟩ := hmodes mode k hbits hmode
    have hpow : 2 ^ k * 2 ^ (w - k) = 2 ^ w := by rw [← pow_add, Nat.add_sub_cancel' hlt.le]
    have hplace : left < 2 ^ w := by
      rw [hleft hmode, ← hpow]
      exact Nat.mul_lt_mul_of_pos_right hpending (Nat.two_pow_pos _)
    obtain ⟨last, hlast, hlastPlace⟩ := h.exists_char left hplace
    refine ⟨outs ++ [left], w - k, cs ++ [last], ?_, ?_, ?_, by omega, ?_, ?_⟩
    · unfold encode
      rw [hrun]
      dsimp only
      rw [hcs, Option.bind_eq_bind, Option.bind_some, if_pos hmode, hlast, Option.bind_eq_bind,
        Option.bind_some, hpadding, Option.bind_eq_bind, Option.bind_some,
        List.append_assoc, List.singleton_append]
    · unfold chars at hcs ⊢
      rw [List.mapM_append, hcs, List.mapM_cons, hlast]
      rfl
    · rw [List.map_append, List.map_append, hplaces, List.map_singleton, hlastPlace,
        List.map_singleton]
    · rw [List.length_append, List.length_singleton, Nat.mul_succ]
      omega
    · rw [value_append, value_singleton, List.length_singleton, pow_one, hleft hmode, ← hvalue,
        Nat.add_mul, Nat.mul_assoc, hpow]

/-! ## Decoding -/

/-- The loop reads the characters of the alphabet and stops behind them. -/
theorem decodeLoop_eq {rest : Bytes} (hstops : B.Stops rest) (hrest : rest ≠ []) :
    ∀ {cs : Bytes} {places : List ℕ} (mode left : ℕ), cs.map B.place = places.map some →
      B.decodeLoop mode left (cs ++ rest) =
        some ((run B.decodeStep mode left places).1.map UInt8.ofNat,
          (run B.decodeStep mode left places).2.1, (run B.decodeStep mode left places).2.2, rest)
  | [], [], mode, left, _ => by
    obtain ⟨c, t, rfl⟩ := List.exists_cons_of_ne_nil hrest
    have hplace : B.place c = none := hstops c rfl
    rw [List.nil_append]
    unfold decodeLoop
    rw [hplace]
    rfl
  | c :: cs, i :: places, mode, left, hplaces => by
    obtain ⟨hplace, hplaces⟩ := List.cons_eq_cons.mp hplaces
    rw [List.cons_append]
    unfold decodeLoop
    rw [hplace]
    dsimp only
    rw [decodeLoop_eq hstops hrest _ _ hplaces, Option.bind_eq_bind, Option.bind_some,
      ← List.map_append]
    rfl

/-- What follows is padded if it has the `=`, and stops behind them. -/
theorem Sound.isPadded_spec (h : Sound B w padding norm) : ∀ (n : ℕ) (r : Bytes),
    ∃ padded, B.isPadded n (r ++ [0]) = some padded ∧
      (padded = true ↔ ∃ t, r = List.replicate n 61 ++ t ∧ B.Stops t)
  | 0, [] => by
    refine ⟨_, rfl, ?_⟩
    rw [h.place_zero]
    exact iff_of_true rfl ⟨[], rfl, nofun⟩
  | 0, c :: r => by
    refine ⟨_, rfl, Option.isNone_iff_eq_none.trans ⟨fun hplace => ?_, ?_⟩⟩
    · exact ⟨c :: r, rfl, fun d hd => Option.some_inj.mp hd ▸ hplace⟩
    · rintro ⟨t, ht, hstops⟩
      exact hstops c (by rw [← ht.trans (List.nil_append t)]; rfl)
  | n + 1, [] => ⟨false, rfl, iff_of_false nofun (by
      rintro ⟨t, ht, -⟩
      rw [List.replicate_succ] at ht
      exact List.cons_ne_nil _ _ ht.symm)⟩
  | n + 1, c :: r => by
    by_cases hc : c = 61
    · subst hc
      obtain ⟨padded, hpadded, hiff⟩ := h.isPadded_spec n r
      refine ⟨padded, hpadded, hiff.trans (exists_congr fun t => and_congr_left fun _ => ?_)⟩
      rw [List.replicate_succ, List.cons_append, List.cons_inj_right]
    · refine ⟨false, if_pos hc, iff_of_false nofun ?_⟩
      rintro ⟨t, ht, -⟩
      rw [List.replicate_succ, List.cons_append] at ht
      exact hc (List.cons_eq_cons.mp ht).1

/-- What is decoded is the number of the characters of the alphabet that come first. It is not
flagged if no bits are left, and the `=` that belong to them follow. -/
theorem Sound.decode_spec (h : Sound B w padding norm) {cs rest : Bytes} {places : List ℕ}
    (hplaces : cs.map B.place = places.map some) (hstops : B.Stops rest) :
    ∃ v k pending flagged, B.decode (cs ++ rest) = some (v, flagged) ∧ k < 8 ∧ pending < 2 ^ k ∧
      8 * v.length + k = w * places.length ∧
      value (2 ^ 8) (v.map UInt8.toNat) * 2 ^ k + pending = value (2 ^ w) places ∧
      (flagged = false ↔ pending = 0 ∧ k < w ∧
        ∃ t, rest = List.replicate (padding k) 61 ++ t ∧ B.Stops t) := by
  obtain ⟨bits, hsteps, hzero, hmodes⟩ := h.decode_steps
  obtain ⟨outs, mode, left, k, pending, hrun, ⟨hbits, hpending, hleft⟩, houts, hlen, hvalue⟩ :=
    run_spec hsteps ⟨hzero, Nat.one_pos, fun hne => absurd rfl hne⟩ (h.chars_of_places hplaces).2
  rw [Nat.zero_add] at hlen
  rw [Nat.zero_mul, Nat.zero_add] at hvalue
  have hmap : (outs.map UInt8.ofNat).map UInt8.toNat = outs := by
    rw [List.map_map]
    exact (List.map_congr_left fun o ho => UInt8.toNat_ofNat_of_lt (houts o ho)).trans
      (List.map_id outs)
  have hterminated : B.Stops (rest ++ [0]) := by
    cases rest with
    | nil => exact fun c hc => Option.some_inj.mp hc ▸ h.place_zero
    | cons c rest => exact hstops
  have hloop := decodeLoop_eq hterminated (by simp) 0 0 hplaces
  rw [hrun, ← List.append_assoc] at hloop
  refine ⟨outs.map UInt8.ofNat, k, pending, ?_⟩
  rw [hmap, List.length_map]
  unfold decode
  rw [hloop, Option.bind_eq_bind, Option.bind_some]
  dsimp only
  by_cases hmode : mode = 0
  · subst hmode
    obtain rfl := Option.some_inj.mp (hzero.symm.trans hbits)
    refine ⟨false, if_pos rfl, by omega, hpending, hlen, hvalue, iff_of_true rfl ?_⟩
    rw [h.padding_zero]
    exact ⟨by omega, h.width_pos, rest, rfl, hstops⟩
  · obtain ⟨hlt, hrequired⟩ := hmodes mode k hbits hmode
    have hleft := (hleft hmode).trans (Nat.mul_one pending)
    rw [if_neg hmode, hrequired, hleft]
    by_cases hk : k < w
    · rw [if_pos hk]
      dsimp only
      by_cases hnone : pending = 0
      · obtain ⟨padded, hpadded, hiff⟩ := h.isPadded_spec (padding k) rest
        rw [if_neg (not_not.mpr hnone), hpadded]
        refine ⟨!padded, rfl, hlt, hpending, hlen, hvalue, ?_⟩
        rw [Bool.not_eq_false', hiff]
        exact ⟨fun ht => ⟨hnone, hk, ht⟩, fun ht => ht.2.2⟩
      · exact ⟨true, if_pos hnone, hlt, hpending, hlen, hvalue,
          iff_of_false nofun fun hall => hnone hall.1⟩
    · rw [if_neg hk]
      exact ⟨true, rfl, hlt, hpending, hlen, hvalue,
        iff_of_false nofun fun hall => hk hall.2.1⟩

/-! ## Round trips -/

/-- Texts of one length with one number are the same. -/
theorem bytes_eq_of_value_eq {x v : Bytes} (hlen : v.length = x.length)
    (h : value (2 ^ 8) (v.map UInt8.toNat) = value (2 ^ 8) (x.map UInt8.toNat)) : v = x := by
  refine List.map_injective_iff.mpr (fun _ _ => UInt8.toNat.inj) ?_
  exact eq_of_value_eq (by decide) (by rw [List.length_map, List.length_map, hlen])
    (map_toNat_lt v) (map_toNat_lt x) h

/-- An encoding, in any case, is decoded, whatever follows that is not in the alphabet. -/
theorem Sound.decode_of_encode (h : Sound B w padding norm) {x e t : Bytes}
    (hencode : B.encode x = some (e.map norm)) (hstops : B.Stops t) :
    B.decode (e ++ t) = some (x, false) := by
  obtain ⟨places, p, cs, hcs, -, hplaces, hp, hlen, hvalue⟩ := h.encode_spec x
  obtain ⟨e₁, e₂, rfl, rfl, hpad⟩ :=
    List.map_eq_append_iff.mp (Option.some_inj.mp (hencode.symm.trans hcs))
  have hchars : e₁.map B.place = places.map some := by
    rw [← hplaces, List.map_map]
    exact List.map_congr_left fun c _ => (h.place_norm c).symm
  have hfill : e₂ = List.replicate (padding p) 61 := by
    refine List.eq_replicate_iff.mpr ⟨?_, fun c hc => (h.norm_eq_pad c).mp ?_⟩
    · rw [← List.length_map, hpad, List.length_replicate]
    · exact List.eq_of_mem_replicate (hpad ▸ List.mem_map_of_mem hc)
  have hstops₁ : B.Stops (e₂ ++ t) := by
    rw [hfill]
    cases padding p with
    | zero => exact hstops
    | succ n => exact fun c hc => Option.some_inj.mp hc ▸ h.place_pad
  obtain ⟨v, k, pending, flagged, hdecode, hk, hpending, hlen', hvalue', hiff⟩ :=
    h.decode_spec hchars hstops₁
  obtain ⟨hlength, rfl⟩ :=
    length_eq_of_mul_add_eq hk (hp.trans h.width_lt) (hlen'.trans hlen)
  have hnone : pending = 0 := by
    have hmod := congrArg (· % 2 ^ k) (hvalue'.trans hvalue)
    simp only [Nat.mul_add_mod', Nat.mul_mod_left] at hmod
    rwa [Nat.mod_eq_of_lt hpending] at hmod
  have hbytes : v = x := by
    refine bytes_eq_of_value_eq hlength (Nat.eq_of_mul_eq_mul_right (Nat.two_pow_pos k) ?_)
    rw [← hvalue, ← hvalue', hnone, Nat.add_zero]
  have hflagged : flagged = false := hiff.mpr ⟨hnone, hp, t, by rw [hfill], hstops⟩
  rw [List.append_assoc, hdecode, hbytes, hflagged]

/-- A text that is not flagged begins with the encoding of what was decoded. -/
theorem Sound.encode_of_decode (h : Sound B w padding norm) {s v : Bytes}
    (hdecode : B.decode s = some (v, false)) :
    ∃ e t, s = e ++ t ∧ B.Stops t ∧ B.encode v = some (e.map norm) := by
  obtain ⟨cs, places, rest, rfl, hplaces, hstops⟩ := B.exists_places s
  obtain ⟨v', k, pending, flagged, hdecode', -, -, hlen, hvalue, hiff⟩ :=
    h.decode_spec hplaces hstops
  obtain ⟨rfl, rfl⟩ := Prod.mk.inj (Option.some_inj.mp (hdecode.symm.trans hdecode'))
  obtain ⟨rfl, hk, t, rfl, ht⟩ := hiff.mp rfl
  obtain ⟨hchars, hlt⟩ := h.chars_of_places hplaces
  obtain ⟨places', p, cs', hencode, hchars', hplaces', hp, hlen', hvalue'⟩ := h.encode_spec v
  obtain ⟨hlength, rfl⟩ := length_eq_of_mul_add_eq (w := w) hk hp
    (by omega : w * places'.length + k = w * places.length + p)
  have hsame : places' = places :=
    eq_of_value_eq (Nat.one_lt_two_pow h.width_pos.ne') hlength
      (h.chars_of_places hplaces').2 hlt (by rw [hvalue', ← hvalue, Nat.add_zero])
  rw [hsame, hchars] at hchars'
  refine ⟨cs ++ List.replicate (padding k) 61, t, (List.append_assoc _ _ _).symm, ht, ?_⟩
  rw [hencode, ← Option.some_inj.mp hchars', List.map_append, List.map_replicate,
    (h.norm_eq_pad 61).mpr rfl]

/-- A text continues an encoding with a character that is not in the alphabet. -/
def Continues (B : BaseCodec) (norm : UInt8 → UInt8) (s : Bytes) : Prop :=
  ∃ e c t, s = e ++ c :: t ∧ B.IsEncoding norm e ∧ B.place c = none

/-- A text is not flagged if it is an encoding or continues one. -/
theorem Sound.decode_iff (h : Sound B w padding norm) (s : Bytes) :
    (∃ v, B.decode s = some (v, false)) ↔ B.IsEncoding norm s ∨ B.Continues norm s := by
  constructor
  · rintro ⟨v, hdecode⟩
    obtain ⟨e, t, rfl, hstops, hencode⟩ := h.encode_of_decode hdecode
    cases t with
    | nil => exact .inl ⟨v, by rwa [List.append_nil]⟩
    | cons c t => exact .inr ⟨e, c, t, rfl, ⟨v, hencode⟩, hstops c rfl⟩
  · rintro (⟨x, hencode⟩ | ⟨e, c, t, rfl, ⟨x, hencode⟩, hplace⟩)
    · exact ⟨x, by rw [← List.append_nil s]; exact h.decode_of_encode hencode nofun⟩
    · exact ⟨x, h.decode_of_encode hencode fun d hd => Option.some_inj.mp hd ▸ hplace⟩

/-- What continues an encoding is none. -/
theorem Sound.not_continues (h : Sound B w padding norm) {s : Bytes} (hs : B.IsEncoding norm s) :
    ¬B.Continues norm s := by
  rintro ⟨e, c, t, rfl, ⟨x, hencode⟩, hplace⟩
  obtain ⟨y, hwhole⟩ := hs
  have hx := h.decode_of_encode (t := c :: t) hencode fun d hd => Option.some_inj.mp hd ▸ hplace
  have hy := h.decode_of_encode (t := []) hwhole nofun
  rw [List.append_nil, hx] at hy
  obtain ⟨rfl, -⟩ := Prod.mk.inj (Option.some_inj.mp hy)
  have hlen := congrArg List.length (Option.some_inj.mp (hencode.symm.trans hwhole))
  rw [List.length_map, List.length_map, List.length_append, List.length_cons] at hlen
  omega

/-- The texts that a decoder should flag and does not are those that continue an encoding. -/
theorem Sound.flagged_iff (h : Sound B w padding norm) (s : Bytes) :
    ((∃ v, B.decode s = some (v, false)) ↔ B.IsEncoding norm s) ↔ ¬B.Continues norm s := by
  rw [h.decode_iff]
  have hnot : B.IsEncoding norm s → ¬B.Continues norm s := h.not_continues
  tauto

theorem Sound.decode_isSome (h : Sound B w padding norm) (s : Bytes) : (B.decode s).isSome := by
  obtain ⟨cs, places, rest, rfl, hplaces, hstops⟩ := B.exists_places s
  obtain ⟨v, k, pending, flagged, hdecode, -⟩ := h.decode_spec hplaces hstops
  rw [hdecode]
  rfl

/-- What was encoded is decoded. -/
theorem Sound.decode_encode (h : Sound B w padding norm) (x : Bytes) :
    ∃ s, B.encode x = some s ∧ B.decode s = some (x, false) := by
  obtain ⟨places, p, cs, hencode, hchars, hplaces, -⟩ := h.encode_spec x
  have hnorm : cs.map norm = cs :=
    Option.some_inj.mp ((h.chars_of_places hplaces).1.symm.trans hchars)
  have hpad : (List.replicate (padding p) 61).map norm = List.replicate (padding p) 61 := by
    rw [List.map_replicate, (h.norm_eq_pad 61).mpr rfl]
  refine ⟨_, hencode, ?_⟩
  rw [← List.append_nil (cs ++ _)]
  exact h.decode_of_encode (hencode.trans (by rw [List.map_append, hnorm, hpad])) nofun

end BaseCodec

/-! ## Both encodings -/

theorem base64_alphabet : base64.alphabet = [
  65, 66, 67, 68, 69, 70, 71, 72, 73, 74, 75, 76, 77, 78, 79, 80, 81, 82, 83, 84, 85, 86, 87, 88,
  89, 90, 97, 98, 99, 100, 101, 102, 103, 104, 105, 106, 107, 108, 109, 110, 111, 112, 113, 114,
  115, 116, 117, 118, 119, 120, 121, 122, 48, 49, 50, 51, 52, 53, 54, 55, 56, 57, 43, 47] := by
  decide

theorem base32_alphabet : base32.alphabet = [
  97, 98, 99, 100, 101, 102, 103, 104, 105, 106, 107, 108, 109, 110, 111, 112, 113, 114, 115,
  116, 117, 118, 119, 120, 121, 122, 50, 51, 52, 53, 54, 55] := by
  decide

theorem base64_place (c : UInt8) (i : ℕ) (h : base64.place c = some i) :
    i < 64 ∧ base64.alphabet[i]? = some c := by
  have htable : ∀ p ∈ base64.table.zipIdx, p.1 ≠ -1 →
      p.1.toNat < 64 ∧ base64.alphabet[p.1.toNat]? = some (UInt8.ofNat p.2) := by
    rw [base64_alphabet]
    decide +kernel
  obtain ⟨dec, hmem, hdec, rfl⟩ := BaseCodec.mem_table_of_place h
  have hc := htable _ hmem hdec
  rwa [UInt8.ofNat_toNat] at hc

theorem base32_place (c : UInt8) (i : ℕ) (h : base32.place c = some i) :
    i < 32 ∧ base32.alphabet[i]? = some (toLower c) := by
  have htable : ∀ p ∈ base32.table.zipIdx, p.1 ≠ -1 →
      p.1.toNat < 32 ∧ base32.alphabet[p.1.toNat]? = some (toLower (UInt8.ofNat p.2)) := by
    rw [base32_alphabet]
    decide +kernel
  obtain ⟨dec, hmem, hdec, rfl⟩ := BaseCodec.mem_table_of_place h
  have hc := htable _ hmem hdec
  rwa [UInt8.ofNat_toNat] at hc

theorem place_toLower (c : UInt8) : base32.place (toLower c) = base32.place c := by
  have hupper : ∀ n : Fin 256, 65 ≤ (⟨⟨n⟩⟩ : UInt8) ∧ (⟨⟨n⟩⟩ : UInt8) ≤ 90 →
      base32.place (⟨⟨n⟩⟩ + 32) = base32.place ⟨⟨n⟩⟩ := by
    decide +kernel
  unfold toLower
  split
  · rename_i hc
    obtain ⟨⟨n⟩⟩ := c
    exact hupper n hc
  · rfl

theorem toLower_eq_pad (c : UInt8) : toLower c = 61 ↔ c = 61 := by
  obtain ⟨⟨n⟩⟩ := c
  revert n
  decide +kernel

theorem base64_sound : base64.Sound 6 (· / 2) id where
  width_pos := by decide
  width_lt := by decide
  length_alphabet := congrArg List.length base64_alphabet
  exists_char := by
    rw [base64_alphabet]
    decide
  alphabet_place := base64_place
  place_pad := rfl
  place_zero := rfl
  place_norm _ := rfl
  norm_eq_pad _ := Iff.rfl
  padding_zero := rfl
  encode_steps := by
    refine ⟨_, steps_encode64, rfl, fun mode k hk hmode => ?_⟩
    match mode, hk with
    | 0, _ => exact absurd rfl hmode
    | 1, rfl | 2, rfl => exact ⟨by decide, by decide, rfl⟩
  decode_steps := by
    refine ⟨_, steps_decode64, rfl, fun mode k hk hmode => ?_⟩
    match mode, hk with
    | 0, _ => exact absurd rfl hmode
    | 1, rfl | 2, rfl | 3, rfl => exact ⟨by decide, rfl⟩

theorem base32_sound : base32.Sound 5 (fun p => p * 3 % 8) toLower where
  width_pos := by decide
  width_lt := by decide
  length_alphabet := congrArg List.length base32_alphabet
  exists_char := by
    rw [base32_alphabet]
    decide
  alphabet_place := base32_place
  place_pad := rfl
  place_zero := rfl
  place_norm := place_toLower
  norm_eq_pad := toLower_eq_pad
  padding_zero := rfl
  encode_steps := by
    refine ⟨_, steps_encode32, rfl, fun mode k hk hmode => ?_⟩
    match mode, hk with
    | 0, _ => exact absurd rfl hmode
    | 1, rfl | 2, rfl | 3, rfl | 4, rfl => exact ⟨by decide, by decide, rfl⟩
  decode_steps := by
    refine ⟨_, steps_decode32, rfl, fun mode k hk hmode => ?_⟩
    match mode, hk with
    | 0, _ => exact absurd rfl hmode
    | 1, rfl | 2, rfl | 3, rfl | 4, rfl | 5, rfl | 6, rfl | 7, rfl => exact ⟨by decide, rfl⟩

/-- What was encoded is decoded and not flagged, and no decoder reads behind the zero at the end of
a text. -/
theorem decode_encode_base64_base32 :
    (∀ x, ∃ s, encodeBase64 x = some s ∧ decodeBase64 s = some (x, false)) ∧
    (∀ x, ∃ s, encodeBase32 x = some s ∧ decodeBase32 s = some (x, false)) ∧
    ∀ s, (decodeBase64 s).isSome ∧ (decodeBase32 s).isSome :=
  ⟨base64_sound.decode_encode, base32_sound.decode_encode,
    fun s => ⟨base64_sound.decode_isSome s, base32_sound.decode_isSome s⟩⟩

/-- A decoder flags what is not an encoding, if and only if the text does not continue an encoding
with a character that is not in the alphabet. -/
theorem flags_iff (s : Bytes) :
    (((∃ v, decodeBase64 s = some (v, false)) ↔ ∃ x, encodeBase64 x = some s) ↔
      ¬∃ e c t, s = e ++ c :: t ∧ (∃ x, encodeBase64 x = some e) ∧ c ∉ pbase64) ∧
    (((∃ v, decodeBase32 s = some (v, false)) ↔ ∃ x, encodeBase32 x = some (s.map toLower)) ↔
      ¬∃ e c t, s = e ++ c :: t ∧ (∃ x, encodeBase32 x = some (e.map toLower)) ∧
        toLower c ∉ pbase32) := by
  have h64 := base64_sound.flagged_iff s
  have h32 := base32_sound.flagged_iff s
  simp only [BaseCodec.IsEncoding, BaseCodec.Continues, List.map_id,
    base64_sound.place_eq_none] at h64
  simp only [BaseCodec.IsEncoding, BaseCodec.Continues, base32_sound.place_eq_none] at h32
  exact ⟨h64, h32⟩

/-- Neither `AAAA!` nor `aaaaaaaa!` is flagged, and they are not encodings. -/
theorem not_flags_trailing :
    (¬∀ s, (∃ v, decodeBase64 s = some (v, false)) ↔ ∃ x, encodeBase64 x = some s) ∧
    ¬∀ s, (∃ v, decodeBase32 s = some (v, false)) ↔
      ∃ x, encodeBase32 x = some (s.map toLower) := by
  constructor <;> intro h
  · obtain ⟨x, hx⟩ := (h (asciiBytes "AAAA!")).mp ⟨[0, 0, 0], by decide⟩
    refine base64_sound.not_continues ⟨x, by rwa [List.map_id]⟩ ⟨asciiBytes "AAAA", 33, [], ?_⟩
    exact ⟨by decide, ⟨[0, 0, 0], by decide⟩, by decide⟩
  · obtain ⟨x, hx⟩ := (h (asciiBytes "aaaaaaaa!")).mp ⟨[0, 0, 0, 0, 0], by decide⟩
    refine base32_sound.not_continues ⟨x, hx⟩ ⟨asciiBytes "aaaaaaaa", 33, [], ?_⟩
    exact ⟨by decide, ⟨[0, 0, 0, 0, 0], by decide⟩, by decide⟩

end Ticoin
