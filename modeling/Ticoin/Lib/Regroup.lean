import Ticoin.Lib.Radix

/-!
# Digits regrouped

A number is written with digits of `v` bits and read by a machine that writes digits of `w` bits. It
keeps the bits that are not enough for a digit, and its states are modes with a register. If each
step keeps the number (`Steps`), so does a run (`run_spec`) : what was written, followed by the bits
that are left, is what was read.

Two lists of digits of one length are equal if their numbers are (`eq_of_value_eq`), and a number
that is written with fewer than eight more bits in both ways has the same number of digits
(`length_eq_of_mul_add_eq`).
-/

namespace Radix

/-! ## Values of lists -/

theorem value_append (b : ℕ) (digits digits' : List ℕ) :
    value b (digits ++ digits') = value b digits * b ^ digits'.length + value b digits' := by
  rw [value, List.reverse_append, Nat.ofDigits_append, List.length_reverse, Nat.add_comm,
    Nat.mul_comm]
  rfl

theorem value_singleton (b d : ℕ) : value b [d] = d := by simp [value]

/-- Digits are determined by their number and how many they are. -/
theorem eq_of_value_eq {b : ℕ} (hb : 1 < b) {l l' : List ℕ} (hlen : l.length = l'.length)
    (hl : ∀ d ∈ l, d < b) (hl' : ∀ d ∈ l', d < b) (h : value b l = value b l') : l = l' := by
  have hreverse := Nat.ofDigits_inj_of_len_eq hb
    (by rw [List.length_reverse, List.length_reverse, hlen])
    (fun d hd => hl d (List.mem_reverse.mp hd)) (fun d hd => hl' d (List.mem_reverse.mp hd)) h
  exact List.reverse_injective hreverse

/-- A length is determined by a number of bits, up to less than one digit. -/
theorem length_eq_of_mul_add_eq {w m n p q : ℕ} (hp : p < w) (hq : q < w)
    (h : w * m + p = w * n + q) : m = n ∧ p = q := by
  have hm : m = n := by
    have hdiv := congrArg (· / w) h
    rwa [Nat.mul_add_div (by omega), Nat.mul_add_div (by omega), Nat.div_eq_of_lt hp,
      Nat.div_eq_of_lt hq] at hdiv
  subst hm
  exact ⟨rfl, by omega⟩

end Radix

namespace Regroup

open Radix

/-- A step takes a mode, a register and a digit, and gives digits, a mode and a register. -/
abbrev Step := ℕ → ℕ → ℕ → List ℕ × ℕ × ℕ

/-- The digits written on a list of digits, with the mode and the register at the end. -/
def run (step : Step) : ℕ → ℕ → List ℕ → List ℕ × ℕ × ℕ
  | mode, left, [] => ([], mode, left)
  | mode, left, d :: ds =>
    let (out, mode, left) := step mode left d
    let (rest, mode, left) := run step mode left ds
    (out ++ rest, mode, left)

/-- `Holds mode left k pending` says that the state keeps `k` bits, whose number is `pending`. A
step keeps the number. -/
def Steps (v w : ℕ) (step : Step) (Holds : ℕ → ℕ → ℕ → ℕ → Prop) : Prop :=
  ∀ mode left k pending d, Holds mode left k pending → d < 2 ^ v →
    ∃ out mode' left' k' pending', step mode left d = (out, mode', left') ∧
      Holds mode' left' k' pending' ∧ (∀ o ∈ out, o < 2 ^ w) ∧ w * out.length + k' = k + v ∧
      value (2 ^ w) out * 2 ^ k' + pending' = pending * 2 ^ v + d

variable {v w : ℕ} {step : Step} {Holds : ℕ → ℕ → ℕ → ℕ → Prop}

/-- A run keeps the number. -/
theorem run_spec (h : Steps v w step Holds) : ∀ {ds : List ℕ} {mode left k pending : ℕ},
    Holds mode left k pending → (∀ d ∈ ds, d < 2 ^ v) →
    ∃ outs mode' left' k' pending', run step mode left ds = (outs, mode', left') ∧
      Holds mode' left' k' pending' ∧ (∀ o ∈ outs, o < 2 ^ w) ∧
      w * outs.length + k' = k + v * ds.length ∧
      value (2 ^ w) outs * 2 ^ k' + pending' =
        pending * 2 ^ (v * ds.length) + value (2 ^ v) ds
  | [], mode, left, k, pending, hholds, _ =>
    ⟨[], mode, left, k, pending, rfl, hholds, nofun, by simp, by simp [value]⟩
  | d :: ds, mode, left, k, pending, hholds, hds => by
    obtain ⟨hd, hds⟩ := List.forall_mem_cons.mp hds
    obtain ⟨out, mode₁, left₁, k₁, pending₁, hstep, hholds₁, hout, hlen, hvalue⟩ :=
      h mode left k pending d hholds hd
    obtain ⟨outs, mode', left', k', pending', hrun, hholds', houts, hlens, hvalues⟩ :=
      run_spec h hholds₁ hds
    refine ⟨out ++ outs, mode', left', k', pending', ?_, hholds',
      List.forall_mem_append.mpr ⟨hout, houts⟩, ?_, ?_⟩
    · simp only [run, hstep, hrun]
    · rw [List.length_append, List.length_cons, Nat.mul_add, Nat.mul_succ]
      omega
    · have hpow : (2 ^ w) ^ outs.length * 2 ^ k' = 2 ^ k₁ * 2 ^ (v * ds.length) := by
        rw [← pow_mul, ← pow_add, ← pow_add, hlens]
      calc value (2 ^ w) (out ++ outs) * 2 ^ k' + pending'
          = value (2 ^ w) out * ((2 ^ w) ^ outs.length * 2 ^ k') +
              (value (2 ^ w) outs * 2 ^ k' + pending') := by rw [value_append]; ring
        _ = (value (2 ^ w) out * 2 ^ k₁ + pending₁) * 2 ^ (v * ds.length) +
              value (2 ^ v) ds := by rw [hpow, hvalues]; ring
        _ = pending * 2 ^ (v * (d :: ds).length) + value (2 ^ v) (d :: ds) := by
            rw [hvalue, value_cons, List.length_cons, Nat.mul_succ, pow_add, pow_mul]
            ring

/-! ## Machines with a table of bits -/

/-- The modes keep the numbers of bits in a table, and the register has the bits, scaled. Mode 0
keeps none, whatever the register. -/
def Keeps (bits : List ℕ) (scale : ℕ → ℕ) (mode left k pending : ℕ) : Prop :=
  bits[mode]? = some k ∧ pending < 2 ^ k ∧ (mode ≠ 0 → left = pending * scale k)

/-- A step that keeps the number `n` : the bits that remain are its last ones. -/
def KeepsNumber (w : ℕ) (bits : List ℕ) (scale : ℕ → ℕ) (n size : ℕ) (r : List ℕ × ℕ × ℕ) : Prop :=
  ∃ k, bits[r.2.1]? = some k ∧ (∀ o ∈ r.1, o < 2 ^ w) ∧ w * r.1.length + k = size ∧
    value (2 ^ w) r.1 = n / 2 ^ k ∧ (r.2.1 ≠ 0 → r.2.2 = n % 2 ^ k * scale k)

theorem steps_of_keepsNumber {bits : List ℕ} {scale : ℕ → ℕ}
    (h : ∀ mode k left pending d, bits[mode]? = some k → pending < 2 ^ k → d < 2 ^ v →
      (mode ≠ 0 → left = pending * scale k) →
      KeepsNumber w bits scale (pending * 2 ^ v + d) (k + v) (step mode left d)) :
    Steps v w step (Keeps bits scale) := by
  intro mode left k pending d hkeeps hd
  obtain ⟨k', hbits, hout, hlen, hvalue, hleft⟩ :=
    h mode k left pending d hkeeps.1 hkeeps.2.1 hd hkeeps.2.2
  refine ⟨_, _, _, k', (pending * 2 ^ v + d) % 2 ^ k', rfl,
    ⟨hbits, Nat.mod_lt _ (Nat.two_pow_pos k'), hleft⟩, hout, hlen, ?_⟩
  rw [hvalue, Nat.div_add_mod']

theorem value_pair (b d d' : ℕ) : value b [d, d'] = d * b + d' := by
  rw [value_cons, value_singleton, List.length_singleton, pow_one]
  ring

/-- No digit is written. -/
theorem keepsNumber_nil {bits : List ℕ} {scale : ℕ → ℕ} {n mode left : ℕ} (size : ℕ)
    (hbits : bits[mode]? = some size) (hn : n < 2 ^ size) (hleft : left = n * scale size) :
    KeepsNumber w bits scale n size ([], mode, left) := by
  refine ⟨size, hbits, nofun, Nat.zero_add _, ?_, fun _ => ?_⟩
  · rw [Nat.div_eq_of_lt hn]
    rfl
  · rwa [Nat.mod_eq_of_lt hn]

/-- One digit is written. -/
theorem keepsNumber_one {bits : List ℕ} {scale : ℕ → ℕ} {n k o mode left : ℕ}
    (hbits : bits[mode]? = some k) (hn : n < 2 ^ (w + k)) (ho : o = n / 2 ^ k)
    (hleft : mode ≠ 0 → left = n % 2 ^ k * scale k) :
    KeepsNumber w bits scale n (w + k) ([o], mode, left) := by
  refine ⟨k, hbits, ?_, by simp, ?_, hleft⟩
  · rw [pow_add] at hn
    rw [List.forall_mem_singleton, ho]
    exact Nat.div_lt_of_lt_mul (by rwa [Nat.mul_comm])
  · rw [value_singleton, ho]

/-- Two digits are written. -/
theorem keepsNumber_two {bits : List ℕ} {scale : ℕ → ℕ} {n k o o' mode left : ℕ}
    (hbits : bits[mode]? = some k) (ho : o < 2 ^ w) (ho' : o' < 2 ^ w)
    (hvalue : o * 2 ^ w + o' = n / 2 ^ k) (hleft : mode ≠ 0 → left = n % 2 ^ k * scale k) :
    KeepsNumber w bits scale n (w + w + k) ([o, o'], mode, left) := by
  refine ⟨k, hbits, ?_, ?_, ?_, hleft⟩
  · exact List.forall_mem_cons.mpr ⟨ho, (List.forall_mem_singleton.mpr ho')⟩
  · simp only [List.length_cons, List.length_nil]
    ring
  · rw [value_pair, hvalue]

theorem mul_two_pow_or {a b m : ℕ} (h : b < 2 ^ m) : a * 2 ^ m ||| b = a * 2 ^ m + b := by
  rw [Nat.mul_comm, ← Nat.two_pow_add_eq_or_of_lt h]

end Regroup
