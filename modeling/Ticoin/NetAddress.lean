import Ticoin.Serialize

/-!
# netbase.cpp, protocol.h : network addresses

A network address is 16 bytes in network byte order, here a number of 128 bits, which is
compared as the bytes are. `GetGroup` gives the bytes that addresses of one network share :
two bytes of an IPv4 address, also of one that is carried in an IPv6 address, and longer
prefixes of others.
-/

namespace Ticoin

open Codec

/-- The 16 bytes of an address, in network byte order. -/
abbrev CNetAddr := BitVec 128

instance transOrdCNetAddr : Std.TransOrd CNetAddr := inferInstance

namespace CNetAddr

variable (ip : CNetAddr)

/-- `GetByte`, which counts from the last byte. -/
def getByte (n : ℕ) : ℕ := ip.toNat / 256 ^ n % 256

/-- `memcmp` of the bytes from an offset on. -/
def hasBytes (offset : ℕ) (bytes : List ℕ) : Bool :=
  (List.range bytes.length).all fun i => getByte ip (15 - (offset + i)) == bytes.getD i 0

def pchIPv4 : List ℕ := [0, 0, 0, 0, 0, 0, 0, 0, 0, 0, 0xff, 0xff]

def pchOnionCat : List ℕ := [0xFD, 0x87, 0xD8, 0x7E, 0xEB, 0x43]

def isIPv4 : Bool := hasBytes ip 0 pchIPv4

/-- IPv4 private networks (10.0.0.0/8, 192.168.0.0/16, 172.16.0.0/12). -/
def isRFC1918 : Bool :=
  isIPv4 ip && (getByte ip 3 == 10 || (getByte ip 3 == 192 && getByte ip 2 == 168) ||
    (getByte ip 3 == 172 && (decide (16 ≤ getByte ip 2) && decide (getByte ip 2 ≤ 31))))

/-- IPv4 autoconfig (169.254.0.0/16). -/
def isRFC3927 : Bool := isIPv4 ip && (getByte ip 3 == 169 && getByte ip 2 == 254)

/-- IPv6 documentation address (2001:0DB8::/32). -/
def isRFC3849 : Bool :=
  getByte ip 15 == 0x20 && getByte ip 14 == 0x01 && getByte ip 13 == 0x0D && getByte ip 12 == 0xB8

/-- IPv6 6to4 tunnelling (2002::/16). -/
def isRFC3964 : Bool := getByte ip 15 == 0x20 && getByte ip 14 == 0x02

/-- IPv6 well-known prefix (64:FF9B::/96). -/
def isRFC6052 : Bool := hasBytes ip 0 [0, 0x64, 0xFF, 0x9B, 0, 0, 0, 0, 0, 0, 0, 0]

/-- IPv6 Teredo tunnelling (2001::/32). -/
def isRFC4380 : Bool :=
  getByte ip 15 == 0x20 && getByte ip 14 == 0x01 && getByte ip 13 == 0 && getByte ip 12 == 0

/-- IPv6 autoconfig (FE80::/64). -/
def isRFC4862 : Bool := hasBytes ip 0 [0xFE, 0x80, 0, 0, 0, 0, 0, 0]

/-- IPv6 unique local (FC00::/7). -/
def isRFC4193 : Bool := getByte ip 15 &&& 0xFE == 0xFC

/-- IPv6 IPv4-translated address (::FFFF:0:0:0/96). -/
def isRFC6145 : Bool := hasBytes ip 0 [0, 0, 0, 0, 0, 0, 0, 0, 0xFF, 0xFF, 0, 0]

/-- IPv6 ORCHID (2001:10::/28). -/
def isRFC4843 : Bool :=
  getByte ip 15 == 0x20 && getByte ip 14 == 0x01 && getByte ip 13 == 0x00 &&
    getByte ip 12 &&& 0xF0 == 0x10

def isTor : Bool := hasBytes ip 0 pchOnionCat

def isLocal : Bool :=
  (isIPv4 ip && (getByte ip 3 == 127 || getByte ip 3 == 0)) ||
    hasBytes ip 0 [0, 0, 0, 0, 0, 0, 0, 0, 0, 0, 0, 0, 0, 0, 0, 1]

def isValid : Bool :=
  -- 3-byte shifted addresses caused by garbage in size field of addr messages
  if hasBytes ip 0 (pchIPv4.drop 3) then false
  else if ip == 0 then false
  else if isRFC3849 ip then false
  else if isIPv4 ip then
    !hasBytes ip 12 [0xff, 0xff, 0xff, 0xff] && !hasBytes ip 12 [0, 0, 0, 0]
  else true

def isRoutable : Bool :=
  isValid ip && !(isRFC1918 ip || isRFC3927 ip || isRFC4862 ip || (isRFC4193 ip && !isTor ip) ||
    isRFC4843 ip || isLocal ip)

def NET_UNROUTABLE : ℕ := 0
def NET_IPV4 : ℕ := 1
def NET_IPV6 : ℕ := 2
def NET_TOR : ℕ := 3

/-- The class and the first bits of an address from a start byte on. -/
def groupBytes (nClass nStartByte nBits : ℕ) : Bytes :=
  UInt8.ofNat nClass ::
    ((List.range (nBits / 8)).map fun i => UInt8.ofNat (getByte ip (15 - (nStartByte + i)))) ++
    if nBits % 8 = 0 then []
    else [UInt8.ofNat (getByte ip (15 - (nStartByte + nBits / 8)) ||| (2 ^ (nBits % 8) - 1))]

def getGroup : Bytes :=
  let nBits := if isLocal ip then 0 else 16
  if !isRoutable ip then groupBytes ip NET_UNROUTABLE 0 0
  else if isIPv4 ip || isRFC6145 ip || isRFC6052 ip then groupBytes ip NET_IPV4 12 nBits
  else if isRFC3964 ip then groupBytes ip NET_IPV4 2 nBits
  else if isRFC4380 ip then
    [UInt8.ofNat NET_IPV4, UInt8.ofNat (getByte ip 3 ^^^ 0xFF), UInt8.ofNat (getByte ip 2 ^^^ 0xFF)]
  else if isTor ip then groupBytes ip NET_TOR 6 4
  else
    let nClass := if isLocal ip then 255 else NET_IPV6
    -- /36 groups for he.net
    if getByte ip 15 == 0x20 && getByte ip 14 == 0x01 && getByte ip 13 == 0x04 &&
        getByte ip 12 == 0x70 then groupBytes ip nClass 0 36
    else groupBytes ip nClass 0 32

-- 1.2.3.4, as a mapped address
example : getGroup 0xffff01020304 = [1, 1, 2] := by decide

/-- The 16 bytes in network byte order. -/
def bytes : Bytes := (leBytes 16 ip.toNat).reverse

end CNetAddr

/-- A combination of a network address and a (TCP) port. -/
structure CService where
  ip : CNetAddr
  port : UInt16
  deriving DecidableEq, Repr

/-- The address, and the port with its high byte first. -/
def CService.getKey (s : CService) : Bytes :=
  s.ip.bytes ++ [UInt8.ofNat (s.port.toNat / 0x100), UInt8.ofNat (s.port.toNat % 0x100)]

/-- A service with information about it as protocol. -/
structure CAddress extends CService where
  nServices : UInt64
  /-- disk and network only -/
  nTime : UInt32
  /-- memory only -/
  nLastTry : Int64
  deriving DecidableEq, Repr

end Ticoin
