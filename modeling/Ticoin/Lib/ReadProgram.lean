import Ticoin.Lib.Codec

/-!
# Programs that read

What a deserializer asks of a stream does not depend on the stream : it is a program of requests for
bytes (`ReadProg`). Over bytes that are there the program is a `Parser` (`ReadProg.toParser`, which
respects the composition of programs). Over a source with a limit it ends with a value, or fails
somewhere, or comes to the end of the source (`ReadProg.ending`), and where it ends with a value the
parser does on the bytes up to the limit (`ReadProg.ending_eq_ok_iff`).
-/

namespace Codec

/-- A program of requests for bytes. -/
inductive ReadProg (ε α : Type)
  | done (a : α)
  | fail (e : ε)
  | read (n : ℕ) (next : Bytes → ReadProg ε α)

variable {ε α β : Type}

namespace ReadProg

def bind : ReadProg ε α → (α → ReadProg ε β) → ReadProg ε β
  | .done a, f => f a
  | .fail e, _ => .fail e
  | .read n next, f => .read n fun bs => (next bs).bind f

instance : Monad (ReadProg ε) where
  pure := .done
  bind := bind

/-- Ask for some bytes. -/
def bytes (n : ℕ) : ReadProg ε Bytes := .read n .done

/-- Ask for a number of `k` bytes. -/
def le (k : ℕ) : ReadProg ε ℕ := do
  let bs ← bytes k
  return ofLeBytes bs

def failWhen (e : ε) (c : Prop) [Decidable c] : ReadProg ε Unit := if c then .fail e else .done ()

/-- Run a program some times. -/
def times (p : ReadProg ε α) : ℕ → ReadProg ε (List α)
  | 0 => return []
  | n + 1 => do
    let a ← p
    let as ← p.times n
    return a :: as

/-! ## Over bytes -/

variable (eof : ε)

/-- The requests answered from bytes. -/
def toParser : ReadProg ε α → Parser ε α
  | .done a => pure a
  | .fail e => fun _ => .error e
  | .read n next => readBytes eof n >>= fun bs => (next bs).toParser

@[simp] theorem toParser_pure (a : α) : toParser eof (pure a) = pure a := rfl

@[simp] theorem toParser_bind (f : α → ReadProg ε β) :
    ∀ p : ReadProg ε α, (p >>= f).toParser eof = p.toParser eof >>= fun a => (f a).toParser eof
  | .done a => rfl
  | .fail e => rfl
  | .read n next => by
    change (readBytes eof n >>= fun bs => (next bs >>= f).toParser eof) =
      (readBytes eof n >>= fun bs => (next bs).toParser eof) >>= fun a => (f a).toParser eof
    rw [bind_assoc]
    simp only [toParser_bind f]

@[simp] theorem toParser_bytes (n : ℕ) : (bytes n).toParser eof = readBytes eof n :=
  bind_pure (readBytes eof n)

@[simp] theorem toParser_le (k : ℕ) : (le k).toParser eof = readLe eof k := by
  simp [le, readLe]

@[simp] theorem toParser_failWhen (e : ε) (c : Prop) [Decidable c] :
    (failWhen e c).toParser eof = failIf e c := by
  funext s
  by_cases hc : c
  · simp only [failWhen, failIf, if_pos hc, toParser]
  · simp only [failWhen, failIf, if_neg hc, toParser]
    rfl

@[simp] theorem toParser_times (p : ReadProg ε α) :
    ∀ n, (p.times n).toParser eof = readN (p.toParser eof) n
  | 0 => rfl
  | n + 1 => by simp [times, readN, toParser_times p n]

/-! ## Over a source with a limit -/

/-- How a program ends on a source : with a value or a failure, and the position, or for want of
bytes. -/
inductive Ending (α : Type)
  | ok (a : α) (pos : ℕ)
  | failed (pos : ℕ)
  | endOfSource

/-- The requests answered from a source, from a position on, none of them beyond a limit or for more
bytes than the most. -/
def ending (src : Bytes) (limit most : ℕ) : ReadProg ε α → ℕ → Ending α
  | .done a, pos => .ok a pos
  | .fail _, pos => .failed pos
  | .read n next, pos =>
    if limit < pos + n ∨ most < n then .failed pos
    else if src.length < pos + n then .endOfSource
    else (next ((src.drop pos).take n)).ending src limit most (pos + n)

variable {src : Bytes} {limit most : ℕ}

/-- A program ends no earlier than it begins, and within the limit and the source. -/
theorem ending_ok_le : ∀ {p : ReadProg ε α} {pos last : ℕ} {a : α}, pos ≤ limit → pos ≤ src.length →
    p.ending src limit most pos = .ok a last → pos ≤ last ∧ last ≤ limit ∧ last ≤ src.length
  | .done b, pos, last, a, hlimit, hlen, h => by
    cases h
    exact ⟨le_rfl, hlimit, hlen⟩
  | .read n next, pos, last, a, hlimit, hlen, h => by
    rw [ending] at h
    split at h
    · cases h
    split at h
    · cases h
    rename_i hwithin hthere
    obtain ⟨hle, hrest⟩ := ending_ok_le (by omega) (by omega) h
    exact ⟨by omega, hrest⟩

theorem ending_failed_le : ∀ {p : ReadProg ε α} {pos last : ℕ}, pos ≤ limit → pos ≤ src.length →
    p.ending src limit most pos = .failed last → pos ≤ last ∧ last ≤ limit ∧ last ≤ src.length
  | .fail e, pos, last, hlimit, hlen, h => by
    cases h
    exact ⟨le_rfl, hlimit, hlen⟩
  | .read n next, pos, last, hlimit, hlen, h => by
    rw [ending] at h
    split at h
    · cases h
      exact ⟨le_rfl, hlimit, hlen⟩
    split at h
    · cases h
    rename_i hwithin hthere
    obtain ⟨hle, hrest⟩ := ending_failed_le (by omega) (by omega) h
    exact ⟨by omega, hrest⟩

/-- The bytes from a position up to a limit. -/
def upTo (src : Bytes) (limit pos : ℕ) : Bytes := (src.drop pos).take (limit - pos)

theorem readBytes_upTo {n pos : ℕ} (hlimit : pos + n ≤ limit) (hlen : pos + n ≤ src.length) :
    readBytes eof n (upTo src limit pos) =
      .ok ((src.drop pos).take n, upTo src limit (pos + n)) := by
  have hroom : ¬(upTo src limit pos).length < n := by
    rw [upTo, List.length_take, List.length_drop]
    omega
  rw [readBytes, if_neg hroom, upTo, List.take_take, min_eq_left (by omega), List.drop_take,
    List.drop_drop, upTo, Nat.sub_sub]

theorem readBytes_upTo_error {n pos : ℕ} (h : limit < pos + n ∨ src.length < pos + n) (hn : 0 < n) :
    readBytes eof n (upTo src limit pos) = .error eof := by
  rw [readBytes, if_pos]
  rw [upTo, List.length_take, List.length_drop]
  omega

/-- A request that is not for too many bytes, and the rest of the program. -/
theorem ending_read_eq_ok_iff {a : α} {last n pos : ℕ} {next : Bytes → ReadProg ε α}
    (hlimit : pos ≤ limit) (hlen : pos ≤ src.length) (hn : pos + n ≤ limit → n ≤ most) (hnext : pos + n ≤ limit → pos + n ≤ src.length →
      ∀ bs, (next bs).ending src limit most (pos + n) = .ok a last ↔
        ∃ rest, (next bs).toParser eof (upTo src limit (pos + n)) = .ok (a, rest) ∧
          last + rest.length = min limit src.length) :
    (ReadProg.read n next).ending src limit most pos = .ok a last ↔
      ∃ rest, (ReadProg.read n next).toParser eof (upTo src limit pos) = .ok (a, rest) ∧
        last + rest.length = min limit src.length := by
  change _ ↔ ∃ rest, (readBytes eof n (upTo src limit pos) >>= _) = _ ∧ _
  rw [ending]
  by_cases hwithin : limit < pos + n ∨ most < n
  · rw [if_pos hwithin]
    refine iff_of_false nofun ?_
    rintro ⟨rest, h, -⟩
    rw [readBytes_upTo_error eof (Or.inl (by omega)) (by omega)] at h
    cases h
  · rw [if_neg hwithin]
    rw [not_or, not_lt, not_lt] at hwithin
    by_cases hthere : src.length < pos + n
    · rw [if_pos hthere]
      refine iff_of_false nofun ?_
      rintro ⟨rest, h, -⟩
      rw [readBytes_upTo_error eof (Or.inr hthere) (by omega)] at h
      cases h
    · rw [if_neg hthere, hnext hwithin.1 (by omega), readBytes_upTo eof hwithin.1 (by omega)]
      rfl

/-- Where no request can be for too many bytes, a program ends with a value when its parser does. -/
theorem ending_eq_ok_iff {a : α} {last : ℕ} : ∀ {p : ReadProg ε α} {pos : ℕ}, pos ≤ limit →
    pos ≤ src.length → limit ≤ pos + most →
    (p.ending src limit most pos = .ok a last ↔
      ∃ rest, p.toParser eof (upTo src limit pos) = .ok (a, rest) ∧
        last + rest.length = min limit src.length)
  | .done b, pos, hlimit, hlen, hmost => by
    have hrest : pos + (upTo src limit pos).length = min limit src.length := by
      rw [upTo, List.length_take, List.length_drop]
      omega
    constructor
    · intro h
      cases h
      exact ⟨_, rfl, hrest⟩
    · rintro ⟨rest, h, hlast⟩
      cases h
      rw [ending, show last = pos by omega]
  | .fail e, pos, hlimit, hlen, hmost => by
    refine iff_of_false nofun ?_
    rintro ⟨rest, h, -⟩
    cases h
  | .read n next, pos, hlimit, hlen, hmost =>
    ending_read_eq_ok_iff eof hlimit hlen (by omega) fun hlimit' hlen' bs =>
      ending_eq_ok_iff hlimit' hlen' (by omega)

end ReadProg

end Codec
