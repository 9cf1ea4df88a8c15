import Ticoin.Lib.Codec

/-!
# netbase.cpp : the handshake with a SOCKS5 proxy

`Socks5` sends two requests and reads two replies. The second reply ends with an address, whose form
the proxy chooses, and of a domain the proxy sends the length in a byte. The code reads this byte as
a `char`, which is signed, and asks for so many bytes.

A reply is so read in full if and only if it has no domain of more than 127 bytes
(`consumes_iff`). Of a longer one the length is negative, and becomes a size close to 2^64.
-/

namespace Ticoin

open Codec

/-! ## The socket -/

/-- A connection : what the peer has sent and was not read, the sizes that reads asked for, and what
was sent. -/
structure ProxySocket where
  inbox : Bytes
  requests : List ℕ := []
  sent : List Bytes := []
  closed : Bool := false
  deriving DecidableEq, Repr

/-- A computation on a connection, that returns true or reports an error. -/
abbrev SocketM (α : Type) := ProxySocket → Except String α × ProxySocket

namespace SocketM

def bind {α β : Type} (x : SocketM α) (f : α → SocketM β) : SocketM β := fun s =>
  match x s with
  | (.error e, s) => (.error e, s)
  | (.ok a, s) => f a s

instance : Monad SocketM where
  pure a s := (.ok a, s)
  bind := bind

theorem bind_assoc {α β γ : Type} (x : SocketM α) (f : α → SocketM β) (g : β → SocketM γ) :
    (x >>= f) >>= g = x >>= fun a => f a >>= g := by
  funext s
  change bind (bind x f) g s = bind x (fun a => bind (f a) g) s
  unfold bind
  dsimp only
  cases x s with
  | mk result s => cases result <;> rfl

theorem pure_bind {α β : Type} (a : α) (f : α → SocketM β) : (pure a : SocketM α) >>= f = f a := rfl

end SocketM

/-- Close the socket and return `error`. -/
def closeWith (e : String) : SocketM Unit := fun s => (.error e, { s with closed := true })

def closeIf (c : Prop) [Decidable c] (e : String) : SocketM Unit :=
  if c then closeWith e else pure ()

/-- `recv` of a number of bytes, which delivers what is asked for as far as it is there. -/
def recv (len : ℕ) : SocketM Bytes := fun s =>
  (.ok (s.inbox.take len),
    { s with
      inbox := s.inbox.drop len
      requests := s.requests ++ [len] })

/-- `send`, where `accepted` is how many bytes of a message the socket takes. -/
def send (accepted : Bytes → ℤ) (message : Bytes) : SocketM ℤ := fun s =>
  (.ok (accepted message), { s with sent := s.sent ++ [message] })

/-- A `char` as an `int`. -/
def charToInt (c : UInt8) : ℤ := c.toInt8.toInt

/-- An `int` as a `size_t`. -/
def intToSize (n : ℤ) : ℕ := (n % 2 ^ 64).toNat

/-! ## The handshake -/

/-- What a proxy says of a request that failed. -/
def socks5Error (reply : UInt8) : String :=
  match reply with
  | 0x01 => "Proxy error: general failure"
  | 0x02 => "Proxy error: connection not allowed"
  | 0x03 => "Proxy error: network unreachable"
  | 0x04 => "Proxy error: host unreachable"
  | 0x05 => "Proxy error: connection refused"
  | 0x06 => "Proxy error: TTL expired"
  | 0x07 => "Proxy error: protocol error"
  | 0x08 => "Proxy error: address type not supported"
  | _ => "Proxy error: unknown"

/-- The request to connect. -/
def socks5Request (strDest : Bytes) (port : ℕ) : Bytes :=
  [5, 1, 0, 3, UInt8.ofNat (min strDest.length 255)] ++ strDest ++
    [UInt8.ofNat (port / 256 % 256), UInt8.ofNat (port % 256)]

/-- Read the address in a reply : whether it was not there. -/
def recvAddress (type : UInt8) : SocketM Bool :=
  match type with
  | 0x01 => do
    let pchRet3 ← recv 4
    return decide (pchRet3.length ≠ 4)
  | 0x04 => do
    let pchRet3 ← recv 16
    return decide (pchRet3.length ≠ 16)
  | 0x03 => do
    let pchRet3 ← recv 1
    closeIf (pchRet3.length ≠ 1) "Error reading from proxy"
    let nRecv := charToInt (pchRet3.headD 0)
    let pchRet3 ← recv (intToSize nRecv)
    return decide ((pchRet3.length : ℤ) ≠ nRecv)
  | _ => do
    closeWith "Error: malformed proxy response"
    return true

/-- `Socks5`. -/
def socks5 (accepted : Bytes → ℤ) (strDest : Bytes) (port : ℕ) : SocketM Unit := do
  closeIf (strDest.length > 255) "Hostname too long"
  let pszSocks5Init : Bytes := [5, 1, 0]
  let ret ← send accepted pszSocks5Init
  closeIf (ret ≠ pszSocks5Init.length) "Error sending to proxy"
  let pchRet1 ← recv 2
  closeIf (pchRet1.length ≠ 2) "Error reading proxy response"
  closeIf (pchRet1.getD 0 0 ≠ 0x05 ∨ pchRet1.getD 1 0 ≠ 0x00) "Proxy failed to initialize"
  let ret ← send accepted (socks5Request strDest port)
  closeIf (ret ≠ (socks5Request strDest port).length) "Error sending to proxy"
  let pchRet2 ← recv 4
  closeIf (pchRet2.length ≠ 4) "Error reading proxy response"
  closeIf (pchRet2.getD 0 0 ≠ 0x05) "Proxy failed to accept request"
  closeIf (pchRet2.getD 1 0 ≠ 0x00) (socks5Error (pchRet2.getD 1 0))
  closeIf (pchRet2.getD 2 0 ≠ 0x00) "Error: malformed proxy response"
  let ret ← recvAddress (pchRet2.getD 3 0)
  closeIf (ret = true) "Error reading from proxy"
  let pchRet3 ← recv 2
  closeIf (pchRet3.length ≠ 2) "Error reading from proxy"

/-! ## Replies -/

/-- An address in a reply, with its size. -/
inductive SocksAddress
  | ipv4 (addr : { addr : Bytes // addr.length = 4 })
  | ipv6 (addr : { addr : Bytes // addr.length = 16 })
  | domain (name : { name : Bytes // name.length < 256 })

/-- The type of an address. -/
def SocksAddress.type : SocksAddress → UInt8
  | .ipv4 _ => 0x01
  | .ipv6 _ => 0x04
  | .domain _ => 0x03

/-- The bytes of an address, for a domain with its length. -/
def SocksAddress.bytes : SocksAddress → Bytes
  | .ipv4 addr => addr.1
  | .ipv6 addr => addr.1
  | .domain name => UInt8.ofNat name.1.length :: name.1

/-- What a proxy sends if it connects : that it needs no authentication, and the address and the
port it is bound to. -/
structure SocksSuccess where
  address : SocksAddress
  port : { port : Bytes // port.length = 2 }

/-- The bytes of the two replies. -/
def SocksSuccess.bytes (reply : SocksSuccess) : Bytes :=
  [5, 0] ++ ([5, 0, 0, reply.address.type] ++ (reply.address.bytes ++ reply.port.1))

/-- The size of the buffer for an address. -/
def sizeofRet3 : ℕ := 256

/-- `Socks5` returns true after reading the bytes of the replies and no others, and no read is
longer than the buffer. -/
def Consumes (accepted : Bytes → ℤ) (strDest : Bytes) (port : ℕ) (reply : SocksSuccess) : Prop :=
  ∀ rest, ∃ s, socks5 accepted strDest port { inbox := reply.bytes ++ rest } = (.ok (), s) ∧
    s.inbox = rest ∧ ∀ len ∈ s.requests, len ≤ sizeofRet3

/-! ## Runs -/

section Steps

variable {α : Type} {s : ProxySocket}

@[simp] theorem run_send (accepted : Bytes → ℤ) (message : Bytes) (f : ℤ → SocketM α) :
    (send accepted message >>= f) s =
      f (accepted message) { s with sent := s.sent ++ [message] } := rfl

theorem run_closeIf {c : Prop} [Decidable c] {e : String} {f : Unit → SocketM α} (h : ¬c) :
    (closeIf c e >>= f) s = f () s := by
  unfold closeIf
  rw [if_neg h]
  rfl

/-- A read of what is there. -/
theorem run_recv {len : ℕ} (head : Bytes) {rest : Bytes} {f : Bytes → SocketM α}
    (h : head.length = len) (hinbox : s.inbox = head ++ rest) : (recv len >>= f) s =
      f head { s with
        inbox := rest
        requests := s.requests ++ [len] } := by
  change f (s.inbox.take len) _ = _
  rw [hinbox, ← h, List.take_left, List.drop_left]

end Steps

theorem charToInt_ofNat : ∀ n < 256, charToInt (UInt8.ofNat n) =
    if n < 128 then (n : ℤ) else (n : ℤ) - 256 := by
  decide +kernel

theorem intToSize_of_lt {n : ℕ} (h : n < 128) : intToSize n = n := by
  unfold intToSize
  omega

/-- What is read after an address. -/
def recvPort (ret : Bool) : SocketM Unit := do
  closeIf (ret = true) "Error reading from proxy"
  let pchRet3 ← recv 2
  closeIf (pchRet3.length ≠ 2) "Error reading from proxy"

section

variable {accepted : Bytes → ℤ} {strDest : Bytes} {port : ℕ} {reply : SocksSuccess}

/-- The handshake up to the address, with a proxy that connects. -/
theorem socks5_run (hsend : ∀ message, accepted message = message.length)
    (hdest : strDest.length ≤ 255) (type : UInt8) (more : Bytes) :
    socks5 accepted strDest port { inbox := [5, 0] ++ ([5, 0, 0, type] ++ more) } =
      (recvAddress type >>= recvPort) {
        inbox := more
        requests := [2, 4]
        sent := [[5, 1, 0], socks5Request strDest port] } := by
  have hgreeting : ([5, 0] : Bytes).length = 2 := rfl
  have hinit : ¬(([5, 0] : Bytes).getD 0 0 ≠ 5 ∨ ([5, 0] : Bytes).getD 1 0 ≠ 0) := by decide
  have hhead : ([5, 0, 0, type] : Bytes).length = 4 := rfl
  have hversion : ¬([5, 0, 0, type] : Bytes).getD 0 0 ≠ 5 := not_not.mpr rfl
  have hreply : ¬([5, 0, 0, type] : Bytes).getD 1 0 ≠ 0 := not_not.mpr rfl
  have hreserved : ¬([5, 0, 0, type] : Bytes).getD 2 0 ≠ 0 := not_not.mpr rfl
  unfold socks5
  rw [run_closeIf (not_lt.mpr hdest), run_send, run_closeIf (not_not.mpr (hsend _)),
    run_recv _ hgreeting rfl, run_closeIf (not_not.mpr hgreeting), run_closeIf hinit, run_send,
    run_closeIf (not_not.mpr (hsend _)), run_recv _ hhead rfl, run_closeIf (not_not.mpr hhead),
    run_closeIf hversion, run_closeIf hreply, run_closeIf hreserved]
  rfl

theorem recvPort_run {s : ProxySocket} {portBytes rest : Bytes} (hport : portBytes.length = 2)
    (hinbox : s.inbox = portBytes ++ rest) : recvPort false s =
      (.ok (), { s with
        inbox := rest
        requests := s.requests ++ [2] }) := by
  unfold recvPort
  rw [run_closeIf Bool.false_ne_true, run_recv _ hport hinbox]
  unfold closeIf
  rw [if_neg (not_not.mpr hport)]
  rfl

/-- An address of a fixed size. -/
theorem recvAddress_run {s : ProxySocket} {addr rest : Bytes} {type : UInt8}
    (hform : type = 0x01 ∧ addr.length = 4 ∨ type = 0x04 ∧ addr.length = 16)
    (hinbox : s.inbox = addr ++ rest) : (recvAddress type >>= recvPort) s =
      recvPort false { s with
        inbox := rest
        requests := s.requests ++ [addr.length] } := by
  have hread : ∀ n, addr.length = n → ((recv n >>= fun pchRet3 => pure (decide
      (pchRet3.length ≠ n))) >>= recvPort) s = recvPort false { s with
        inbox := rest
        requests := s.requests ++ [addr.length] } := by
    intro n hlen
    rw [SocketM.bind_assoc, run_recv _ hlen hinbox, SocketM.pure_bind]
    simp only [hlen, ne_eq, not_true_eq_false, decide_false]
  rcases hform with ⟨rfl, hlen⟩ | ⟨rfl, hlen⟩
  · exact hread 4 hlen
  · exact hread 16 hlen

/-- A domain is read if its length is not negative as a `char`. -/
theorem recvAddress_domain {s : ProxySocket} {name rest : Bytes} (hlen : name.length < 256)
    (hinbox : s.inbox = UInt8.ofNat name.length :: name ++ rest) :
    (name.length < 128 → (recvAddress 0x03 >>= recvPort) s =
      recvPort false { s with
        inbox := rest
        requests := s.requests ++ [1] ++ [name.length] }) ∧
    (128 ≤ name.length → ∃ s', (recvAddress 0x03 >>= recvPort) s =
      (.error "Error reading from proxy", s') ∧
        2 ^ 64 - 256 + name.length ∈ s'.requests) := by
  have hstart : (recvAddress 0x03 >>= recvPort) s =
      (recv (intToSize (charToInt (UInt8.ofNat name.length))) >>= fun pchRet3 =>
        recvPort (decide ((pchRet3.length : ℤ) ≠ charToInt (UInt8.ofNat name.length))))
          { s with
            inbox := name ++ rest
            requests := s.requests ++ [1] } := by
    have hone : ([UInt8.ofNat name.length] : Bytes).length = 1 := rfl
    change ((recv 1 >>= fun pchRet3 => closeIf (pchRet3.length ≠ 1) "Error reading from proxy" >>=
      fun _ => recv (intToSize (charToInt (pchRet3.headD 0))) >>= fun pchRet3' =>
        pure (decide ((pchRet3'.length : ℤ) ≠ charToInt (pchRet3.headD 0)))) >>= recvPort) s = _
    rw [SocketM.bind_assoc, run_recv _ hone hinbox, SocketM.bind_assoc,
      run_closeIf (not_not.mpr hone), SocketM.bind_assoc]
    rfl
  rw [hstart, charToInt_ofNat _ hlen]
  refine ⟨fun hshort => ?_, fun hlong => ?_⟩
  · rw [if_pos hshort, intToSize_of_lt hshort, run_recv _ rfl rfl]
    simp only [ne_eq, not_true_eq_false, decide_false]
  · rw [if_neg (not_lt.mpr hlong)]
    have hsize : intToSize ((name.length : ℤ) - 256) = 2 ^ 64 - 256 + name.length := by
      unfold intToSize
      omega
    have hnegative : ∀ pchRet3 : Bytes, ((pchRet3.length : ℤ) ≠ (name.length : ℤ) - 256) :=
      fun pchRet3 => by omega
    refine ⟨{ s with
      inbox := (name ++ rest).drop (intToSize ((name.length : ℤ) - 256))
      requests := s.requests ++ [1] ++ [intToSize ((name.length : ℤ) - 256)]
      closed := true }, ?_, ?_⟩
    · change recvPort (decide _) _ = _
      rw [decide_eq_true (hnegative _)]
      rfl
    · rw [hsize]
      exact List.mem_append_right _ (List.mem_singleton_self _)

/-- The run on a reply and what follows it, from the address on. -/
theorem socks5_reply (hsend : ∀ message, accepted message = message.length)
    (hdest : strDest.length ≤ 255) (rest : Bytes) :
    socks5 accepted strDest port { inbox := reply.bytes ++ rest } =
      (recvAddress reply.address.type >>= recvPort) {
        inbox := reply.address.bytes ++ (reply.port.1 ++ rest)
        requests := [2, 4]
        sent := [[5, 1, 0], socks5Request strDest port] } := by
  rw [← socks5_run hsend hdest]
  simp only [SocksSuccess.bytes, List.append_assoc]

/-- A reply with an address of a fixed size is read. -/
theorem consumes_of_fixed (hsend : ∀ message, accepted message = message.length)
    (hdest : strDest.length ≤ 255)
    (hform : reply.address.type = 0x01 ∧ reply.address.bytes.length = 4 ∨
      reply.address.type = 0x04 ∧ reply.address.bytes.length = 16) :
    Consumes accepted strDest port reply := by
  intro rest
  refine ⟨_, (socks5_reply hsend hdest rest).trans
    ((recvAddress_run hform rfl).trans (recvPort_run reply.port.2 rfl)), rfl, ?_⟩
  rcases hform with ⟨-, hlen⟩ | ⟨-, hlen⟩
  · simp [hlen, sizeofRet3]
  · simp [hlen, sizeofRet3]

/-- A reply with a domain is read if and only if it has at most 127 bytes. -/
theorem consumes_domain (hsend : ∀ message, accepted message = message.length)
    (hdest : strDest.length ≤ 255) {name : { name : Bytes // name.length < 256 }}
    (hname : reply.address = .domain name) :
    Consumes accepted strDest port reply ↔ name.1.length < 128 := by
  have hrun := fun rest => @socks5_reply accepted strDest port reply hsend hdest rest
  rw [hname] at hrun
  have hread := fun rest => recvAddress_domain (s := {
    inbox := UInt8.ofNat name.1.length :: name.1 ++ (reply.port.1 ++ rest)
    requests := [2, 4]
    sent := [[5, 1, 0], socks5Request strDest port] }) name.2 rfl
  constructor
  · intro hconsumes
    by_contra hlong
    obtain ⟨s, hs, -⟩ := hconsumes []
    obtain ⟨s', hs', -⟩ := (hread []).2 (not_lt.mp hlong)
    cases (hs'.symm.trans (hrun []).symm).trans hs
  · intro hshort rest
    refine ⟨_, (hrun rest).trans (((hread rest).1 hshort).trans (recvPort_run reply.port.2 rfl)),
      rfl, ?_⟩
    simp [sizeofRet3]
    omega

/-- A reply is read as it should be if and only if it has no domain of more than 127 bytes. -/
theorem consumes_iff (hsend : ∀ message, accepted message = message.length)
    (hdest : strDest.length ≤ 255) : Consumes accepted strDest port reply ↔
      ∀ name, reply.address = .domain name → name.1.length < 128 := by
  cases haddress : reply.address with
  | ipv4 addr =>
    refine iff_of_true (consumes_of_fixed hsend hdest (.inl ?_)) nofun
    rw [haddress]
    exact ⟨rfl, addr.2⟩
  | ipv6 addr =>
    refine iff_of_true (consumes_of_fixed hsend hdest (.inr ?_)) nofun
    rw [haddress]
    exact ⟨rfl, addr.2⟩
  | domain name =>
    rw [consumes_domain hsend hdest haddress]
    exact ⟨fun hlt name' hname => by cases hname; exact hlt, fun h => h name rfl⟩

end

/-- A reply with an address of IPv4. -/
def ipv4Reply : SocksSuccess := ⟨.ipv4 ⟨[127, 0, 0, 1], rfl⟩, ⟨[0, 80], rfl⟩⟩

theorem consumes_ipv4Reply : Consumes (fun message => message.length) [104] 80 ipv4Reply :=
  (consumes_iff (fun _ => rfl) (by decide)).mpr nofun

/-- A reply with a domain of 128 bytes. -/
def longDomain : SocksSuccess :=
  ⟨.domain ⟨List.replicate 128 97, by rw [List.length_replicate]; decide⟩, ⟨[0, 80], rfl⟩⟩

theorem not_consumes_longDomain :
    ¬∀ reply, Consumes (fun message => message.length) [104] 80 reply := by
  intro h
  have hlt := (consumes_domain (fun _ => rfl) (by decide) rfl).mp (h longDomain)
  rw [List.length_replicate] at hlt
  exact absurd hlt (by decide)

end Ticoin
