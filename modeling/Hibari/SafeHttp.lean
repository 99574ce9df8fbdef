import Hibari.InternetAddr
import Mathlib.Data.List.Basic
import Mathlib.Data.Nat.Digits.Defs
import Mathlib.Tactic.Tauto

/-!
# Fetches of URLs that users write

The server fetches pages that its users link to, and must not be a way into the networks behind it.
`PublicAddr` tells the addresses of the internet; the dialer asks it for each address right before
it connects, whatever name was resolved to it; and `CheckRedirect` looks at each URL that an answer
redirects to. What other parties do is a `Network`: for each request that is sent the addresses that
a lookup finds by then, which of them accept a connection, and what comes back.

Whatever it does, each connection goes to an address that passed, to one of the ports, and no more
redirects are followed and no more bytes are returned than were asked for (`fetches_checked`). The
ranges are tested with `Prefix.Contains`, though, in which an address with a zone never is: the
bits of an address of the ranges with any zone pass as public (`publicAddr_zone`).
-/

namespace Hibari

open List

namespace SafeHttp

open Addr

variable {b : BitVec 128} {zone : List Char}

/-- `deniedPrefixes`: ranges that are not connected to though they look like those of the internet.
-/
def deniedPrefixes : List Prefix :=
  [.v4 ⟨0x00000000, 8⟩, .v4 ⟨0x64400000, 10⟩, .v4 ⟨0xc0000000, 24⟩, .v4 ⟨0xc0000200, 24⟩,
    .v4 ⟨0xc6120000, 15⟩, .v4 ⟨0xc6336400, 24⟩, .v4 ⟨0xcb007100, 24⟩, .v4 ⟨0xf0000000, 4⟩,
    .v6 ⟨0, 96⟩, .v6 ⟨0x01000000000000000000000000000000, 64⟩,
    .v6 ⟨0x20010000000000000000000000000000, 32⟩, .v6 ⟨0x20010db8000000000000000000000000, 32⟩,
    .v6 ⟨0x20020000000000000000000000000000, 16⟩, .v6 ⟨0x0064ff9b000100000000000000000000, 48⟩,
    .v6 ⟨0xfec00000000000000000000000000000, 10⟩]

/-- The range whose last four bytes are another address. -/
def nat64Cidr : Cidr 128 := ⟨0x0064ff9b000000000000000000000000, 96⟩

/-- `nat64`. -/
def nat64 : Prefix := .v6 nat64Cidr

/-- `PublicAddr`: an address on the far side of the internet. -/
def PublicAddr (addr : Addr) : Bool :=
  match _hunmap : addr.Unmap with
  | .v6 b zone =>
    if nat64.Contains (.v6 b zone) then PublicAddr (.v4 (lowV4 b)) else
      !(!(Addr.v6 b zone).IsGlobalUnicast || (Addr.v6 b zone).IsPrivate) &&
        deniedPrefixes.all fun p => !p.Contains (.v6 b zone)
  | a => !(!a.IsGlobalUnicast || a.IsPrivate) && deniedPrefixes.all fun p => !p.Contains a
termination_by if addr.Is6 then 1 else 0
decreasing_by
  cases addr with
  | v6 => exact Nat.zero_lt_one
  | _ => cases _hunmap

/-! ## What is not to be reached -/

/-- An address of four bytes that is private, loopback, link-local, multicast or reserved. -/
def Reserved (b : BitVec 32) : Prop :=
  (Addr.v4 b).IsSpecial = true ∨ ∃ p ∈ deniedPrefixes, p.covers (.v4 b) = true

instance : DecidablePred Reserved := fun b => by
  unfold Reserved
  infer_instance

/-- The address of four bytes that an address is or has in it. -/
def Embeds : Addr → BitVec 32 → Prop
  | .invalid, _ => False
  | .v4 b, c => b = c
  | .v6 b _, c => (mapped.Mem b ∨ nat64Cidr.Mem b) ∧ lowV4 b = c

/-- **An address that is not to be reached**, whatever its zone: one of the ranges has it, or it is
one of four bytes that is reserved, or has such a one in it. -/
def Denied (a : Addr) : Prop :=
  a.IsSpecial = true ∨ (∃ p ∈ deniedPrefixes, p.covers a = true) ∨ ∃ b, Embeds a b ∧ Reserved b

/-- What keeps an address out is found by `Prefix.Contains` alone: one of the ranges has it but for
its zone, or it is in the range of those with another address in them, and that one is reserved. -/
def OnlyByPrefix (a : Addr) : Prop :=
  a.IsLoopback = false ∧ ((∃ p ∈ deniedPrefixes, p.covers a = true) ∨
    nat64.covers a = true ∧ ∃ b, Embeds a b ∧ Reserved b)

/-! ## How the ranges lie -/

/-- None of the ranges of sixteen bytes has an address in it that is in the range. -/
def Apart (c : Cidr 128) (p : Prefix) : Prop :=
  ∀ d, p = .v6 d → ¬ c.Mem d.bits ∧ ¬ d.Mem c.bits

instance (c : Cidr 128) (p : Prefix) : Decidable (Apart c p) :=
  match p with
  | .v4 _ => isTrue fun _ h => nomatch h
  | .v6 d => decidable_of_iff (¬ c.Mem d.bits ∧ ¬ d.Mem c.bits) <| by
      constructor
      · rintro h _ ⟨⟩
        exact h
      · exact fun h => h d rfl

theorem Apart.covers {c : Cidr 128} {p : Prefix} (h : Apart c p) (hb : c.Mem b)
    (zone : List Char) : p.covers (.v6 b zone) = false := by
  cases p with
  | v4 => rfl
  | v6 d =>
    obtain ⟨hcd, hdc⟩ := h d rfl
    exact decide_eq_false (Cidr.not_mem_of_mem hdc hcd hb)

/-- The addresses that stand for four bytes and those with four bytes in them are in none of the
ranges. -/
theorem apart_deniedPrefixes : ∀ p ∈ deniedPrefixes, Apart mapped p ∧ Apart nat64Cidr p := by
  decide

/-- The ranges that the predicates tell have no address with another one in it, and nothing but
`::1` that the denied ranges have too. -/
theorem apart_special : ∀ c ∈ multicastV6 ++ linkLocalV6 ++ privateV6,
    Apart c nat64 ∧ ∀ p ∈ deniedPrefixes, Apart c p := by
  decide

/-! ## `PublicAddr`, case by case -/

/-- No range has the address in it, its zone included. -/
def Clear (a : Addr) : Prop :=
  ∀ p ∈ deniedPrefixes, p.Contains a = false

theorem clear_v4 {b : BitVec 32} :
    Clear (.v4 b) ↔ ¬ ∃ p ∈ deniedPrefixes, p.covers (.v4 b) = true := by
  simp only [Clear, Prefix.contains_v4, not_exists, not_and, Bool.not_eq_true]

theorem clear_plain : Clear (.v6 b []) ↔ ¬ ∃ p ∈ deniedPrefixes, p.covers (.v6 b []) = true := by
  simp only [Clear, Prefix.contains_plain, not_exists, not_and, Bool.not_eq_true]

theorem clear_zone (hzone : zone ≠ []) : Clear (.v6 b zone) := fun p _ => p.contains_zone b hzone

theorem passes_iff (a : Addr) :
    (!(!a.IsGlobalUnicast || a.IsPrivate) && deniedPrefixes.all fun p => !p.Contains a) = true ↔
      (a.IsGlobalUnicast = true ∧ a.IsPrivate = false) ∧ Clear a := by
  simp [Clear]

/-- The recursion of `PublicAddr`, written without its measure. -/
theorem publicAddr_eq (a : Addr) : PublicAddr a = match a.Unmap with
      | .v6 b zone =>
        if nat64.Contains (.v6 b zone) then PublicAddr (.v4 (lowV4 b)) else
          !(!(Addr.v6 b zone).IsGlobalUnicast || (Addr.v6 b zone).IsPrivate) &&
            deniedPrefixes.all fun p => !p.Contains (.v6 b zone)
      | a => !(!a.IsGlobalUnicast || a.IsPrivate) && deniedPrefixes.all fun p => !p.Contains a := by
  rw [PublicAddr]
  split <;> simp_all

/-- **Of four bytes** those pass that are not reserved. -/
theorem publicAddr_v4 (b : BitVec 32) : PublicAddr (.v4 b) = true ↔ ¬ Reserved b := by
  rw [publicAddr_eq]
  show (!(!(Addr.v4 b).IsGlobalUnicast || (Addr.v4 b).IsPrivate) &&
    deniedPrefixes.all fun p => !p.Contains (.v4 b)) = true ↔ _
  rw [passes_iff, global_iff, clear_v4, Reserved, not_or, Bool.not_eq_true]
  constructor
  · rintro ⟨⟨-, -, -, -, hspecial⟩, hclear⟩
    exact ⟨hspecial, hclear⟩
  · rintro ⟨hspecial, hclear⟩
    refine ⟨⟨nofun, ?_, ?_, nofun, hspecial⟩, hclear⟩
    · rintro ⟨⟩
      exact hclear ⟨_, .head _, rfl⟩
    · rintro ⟨⟩
      exact hclear ⟨.v4 ⟨0xf0000000, 4⟩, by decide, by decide⟩

theorem publicAddr_mapped (hmapped : mapped.Mem b) (zone : List Char) :
    PublicAddr (.v6 b zone) = PublicAddr (.v4 (lowV4 b)) := by
  rw [publicAddr_eq, publicAddr_eq (.v4 _), unmap_mapped hmapped, unmap_v4]

variable (hnat : nat64Cidr.Mem b)
include hnat

/-- The range whose members have another address in them is apart from the one whose members stand
for another address. -/
theorem not_mapped_of_nat64 : ¬ mapped.Mem b :=
  Cidr.not_mem_of_mem (by decide) (by decide) hnat

theorem publicAddr_nat64 : PublicAddr (.v6 b []) = PublicAddr (.v4 (lowV4 b)) := by
  have hcontains : nat64.Contains (.v6 b []) = true := decide_eq_true hnat
  rw [publicAddr_eq, unmap_v6 (not_mapped_of_nat64 hnat)]
  simp only [hcontains, if_true]

omit hnat

/-- An address that stands for no other and has no other in it. -/
theorem publicAddr_v6 (hmapped : ¬ mapped.Mem b) (hnat : nat64.Contains (.v6 b zone) = false) :
    PublicAddr (.v6 b zone) = true ↔ (Addr.v6 b zone).IsSpecial = false ∧ Clear (.v6 b zone) := by
  rw [publicAddr_eq, unmap_v6 hmapped]
  simp only [hnat, Bool.false_eq_true, if_false]
  rw [passes_iff, global_iff]
  constructor
  · rintro ⟨⟨-, -, -, -, hspecial⟩, hclear⟩
    exact ⟨hspecial, hclear⟩
  · rintro ⟨hspecial, hclear⟩
    refine ⟨⟨nofun, nofun, nofun, ?_, hspecial⟩, hclear⟩
    rintro ⟨⟩
    cases hclear (.v6 ⟨0, 96⟩) (by decide)

/-- **With a zone** all pass that the predicates do not tell. -/
theorem publicAddr_zone (hmapped : ¬ mapped.Mem b) (hzone : zone ≠ []) :
    PublicAddr (.v6 b zone) = true ↔ (Addr.v6 b zone).IsSpecial = false := by
  rw [publicAddr_v6 hmapped (nat64.contains_zone b hzone), and_iff_left (clear_zone hzone)]

/-! ## What is denied, case by case -/

theorem denied_v4 (b : BitVec 32) : Denied (.v4 b) ↔ Reserved b := by
  constructor
  · rintro (hspecial | hcovers | ⟨_, rfl, hreserved⟩)
    · exact .inl hspecial
    · exact .inr hcovers
    · exact hreserved
  · exact fun h => .inr (.inr ⟨b, rfl, h⟩)

theorem denied_mapped (hmapped : mapped.Mem b) (zone : List Char) :
    Denied (.v6 b zone) ↔ Reserved (lowV4 b) := by
  constructor
  · rintro (hspecial | ⟨p, hp, hcovers⟩ | ⟨_, ⟨-, rfl⟩, hreserved⟩)
    · exact .inl (isSpecial_mapped hmapped zone ▸ hspecial)
    · rw [(apart_deniedPrefixes p hp).1.covers hmapped] at hcovers
      cases hcovers
    · exact hreserved
  · exact fun h => .inr (.inr ⟨_, ⟨.inl hmapped, rfl⟩, h⟩)

include hnat

/-- An address with another one in it is not in the ranges of the predicates. -/
theorem not_isSpecial_of_nat64 (zone : List Char) : (Addr.v6 b zone).IsSpecial = false := by
  have hmapped := not_mapped_of_nat64 hnat
  rw [Bool.eq_false_iff]
  intro hspecial
  obtain hloopback | ⟨c, hc, hmem⟩ := (isSpecial_v6 hmapped zone).mp hspecial
  · have hone := (isLoopback_v6 hmapped zone).mp hloopback
    exact Cidr.not_mem_of_mem (by decide) (by decide) hone hnat
  · obtain ⟨hcn, hnc⟩ := (apart_special c hc).1 nat64Cidr rfl
    exact Cidr.not_mem_of_mem hnc hcn hmem hnat

theorem denied_nat64 (zone : List Char) : Denied (.v6 b zone) ↔ Reserved (lowV4 b) := by
  constructor
  · rintro (hspecial | ⟨p, hp, hcovers⟩ | ⟨_, ⟨-, rfl⟩, hreserved⟩)
    · rw [not_isSpecial_of_nat64 hnat] at hspecial
      cases hspecial
    · rw [(apart_deniedPrefixes p hp).2.covers hnat] at hcovers
      cases hcovers
    · exact hreserved
  · exact fun h => .inr (.inr ⟨_, ⟨.inr hnat, rfl⟩, h⟩)

omit hnat

/-- An address that stands for no other and has no other in it. -/
theorem denied_v6 (hmapped : ¬ mapped.Mem b) (hnat : ¬ nat64Cidr.Mem b) (zone : List Char) :
    Denied (.v6 b zone) ↔ (Addr.v6 b zone).IsSpecial = true ∨
      ∃ p ∈ deniedPrefixes, p.covers (.v6 b zone) = true := by
  constructor
  · rintro (hspecial | hcovers | ⟨_, ⟨hmem, -⟩, -⟩)
    · exact .inl hspecial
    · exact .inr hcovers
    · exact absurd hmem (not_or.mpr ⟨hmapped, hnat⟩)
  · exact fun h => h.imp_right .inl

/-! ## Denied and refused -/

/-- Without a zone nothing that is denied passes. -/
theorem refused_of_plain (hdenied : Denied (.v6 b [])) : PublicAddr (.v6 b []) = false := by
  rw [Bool.eq_false_iff]
  intro hpublic
  by_cases hmapped : mapped.Mem b
  · rw [publicAddr_mapped hmapped, publicAddr_v4] at hpublic
    exact hpublic ((denied_mapped hmapped []).mp hdenied)
  by_cases hnat : nat64Cidr.Mem b
  · rw [publicAddr_nat64 hnat, publicAddr_v4] at hpublic
    exact hpublic ((denied_nat64 hnat []).mp hdenied)
  have hcontains : nat64.Contains (.v6 b []) = false := decide_eq_false hnat
  obtain ⟨hspecial, hclear⟩ := (publicAddr_v6 hmapped hcontains).mp hpublic
  obtain hdenied | hdenied := (denied_v6 hmapped hnat []).mp hdenied
  · exact nomatch hspecial.symm.trans hdenied
  · exact clear_plain.mp hclear hdenied

/-- What only `Prefix.Contains` would find is not told by the predicates. -/
theorem OnlyByPrefix.not_isSpecial (hmapped : ¬ mapped.Mem b)
    (h : OnlyByPrefix (.v6 b zone)) : (Addr.v6 b zone).IsSpecial = false := by
  obtain ⟨hloopback, ⟨p, hp, hcovers⟩ | ⟨hnat, -⟩⟩ := h
  · rw [Bool.eq_false_iff]
    intro hspecial
    obtain hloop | ⟨c, hc, hmem⟩ := (isSpecial_v6 hmapped zone).mp hspecial
    · exact nomatch hloopback.symm.trans hloop
    · rw [((apart_special c hc).2 p hp).covers hmem] at hcovers
      cases hcovers
  · exact not_isSpecial_of_nat64 (of_decide_eq_true hnat) zone

theorem not_onlyByPrefix_of_mapped (hmapped : mapped.Mem b) (zone : List Char) :
    ¬ OnlyByPrefix (.v6 b zone) := by
  rintro ⟨-, ⟨p, hp, hcovers⟩ | ⟨hnat, -⟩⟩
  · rw [(apart_deniedPrefixes p hp).1.covers hmapped] at hcovers
    cases hcovers
  · exact not_mapped_of_nat64 (of_decide_eq_true hnat) hmapped

/-- With a zone just that is refused, of what is denied, that is not found by `Prefix.Contains`
alone. -/
theorem refused_iff_of_zone (hzone : zone ≠ []) :
    (Denied (.v6 b zone) → PublicAddr (.v6 b zone) = false) ↔ ¬ OnlyByPrefix (.v6 b zone) := by
  by_cases hmapped : mapped.Mem b
  · refine iff_of_true (fun hdenied => ?_) (not_onlyByPrefix_of_mapped hmapped zone)
    rw [publicAddr_mapped hmapped, Bool.eq_false_iff, ne_eq, publicAddr_v4, not_not]
    exact (denied_mapped hmapped zone).mp hdenied
  constructor
  · intro hrefused honly
    have hdenied : Denied (.v6 b zone) := by
      obtain ⟨-, hcovers | ⟨-, hembeds⟩⟩ := honly
      · exact .inr (.inl hcovers)
      · exact .inr (.inr hembeds)
    have hpublic := (publicAddr_zone hmapped hzone).mpr (honly.not_isSpecial hmapped)
    cases hpublic.symm.trans (hrefused hdenied)
  · intro honly hdenied
    rw [Bool.eq_false_iff, ne_eq, publicAddr_zone hmapped hzone]
    intro hspecial
    refine honly ⟨?_, ?_⟩
    · simp only [IsSpecial, Bool.or_eq_false_iff] at hspecial
      exact hspecial.1.1.1
    · obtain hdenied | hcovers | ⟨c, ⟨hmem, hlow⟩, hreserved⟩ := hdenied
      · cases hspecial.symm.trans hdenied
      · exact .inl hcovers
      · obtain hmem | hnat := hmem
        · exact absurd hmem hmapped
        · exact .inr ⟨decide_eq_true hnat, c, ⟨.inr hnat, hlow⟩, hreserved⟩

/-- **What is denied is refused** just if it has no zone, or is found by more than
`Prefix.Contains`. -/
theorem refused_iff (a : Addr) :
    (Denied a → PublicAddr a = false) ↔ a.zone = [] ∨ ¬ OnlyByPrefix a := by
  match a with
  | .invalid =>
    refine iff_of_true (fun _ => ?_) (.inl rfl)
    rw [publicAddr_eq]
    rfl
  | .v4 b =>
    refine iff_of_true (fun hdenied => ?_) (.inl rfl)
    rw [Bool.eq_false_iff, ne_eq, publicAddr_v4, not_not]
    exact (denied_v4 b).mp hdenied
  | .v6 b [] => exact iff_of_true refused_of_plain (.inl rfl)
  | .v6 b (c :: zone) =>
    rw [refused_iff_of_zone (cons_ne_nil c zone)]
    exact ⟨.inr, fun h => h.resolve_left (cons_ne_nil c zone)⟩

/-! ## The client -/

/-- What the client looks at of a URL, and the rest. -/
structure URL where
  scheme : List Char
  /-- User and password, if there are any. -/
  user : Option (List Char)
  hostname : List Char
  port : List Char
  rest : List Char
  deriving DecidableEq

/-- An address and a port of it, which a connection goes to. -/
structure TCPAddr where
  addr : Addr
  port : ℕ
  deriving DecidableEq

/-- What keeps `Get` from a response. -/
inductive FetchError
  /-- `ErrBlocked`, with what was looked at. -/
  | notURL
  | scheme (scheme : List Char)
  | userinfo
  | port (port : List Char)
  | notRequest
  /-- More redirects than are followed. -/
  | stopped (redirects : ℤ)
  /-- No connection or no answer. -/
  | get
  | status (code : ℕ)
  | readBody
  deriving DecidableEq

/-- `Options`. -/
structure Options where
  userAgent : List Char
  maxRedirects : ℤ
  allowAddr : Option (Addr → Bool)
  ports : Option (List ℕ)

/-- `Client`, with what its dialer and its `CheckRedirect` have of the options. -/
structure Client where
  userAgent : List Char
  maxRedirects : ℤ
  allowAddr : Addr → Bool
  ports : List ℕ

/-- `New`. -/
def New (opts : Options) : Client where
  userAgent := opts.userAgent
  maxRedirects := if opts.maxRedirects = 0 then 3 else opts.maxRedirects
  allowAddr := opts.allowAddr.getD PublicAddr
  ports := opts.ports.getD [80, 443]

/-- `strconv.ParseUint` to the base 10 and of 16 bits. -/
def parseUint16 (s : List Char) : Option ℕ :=
  if s ≠ [] ∧ s.all Char.isDigit then
    let n := Nat.ofDigits 10 (s.reverse.map fun c => c.toNat - '0'.toNat)
    if n < 2 ^ 16 then some n else none
  else none

def http : List Char := ['h', 't', 't', 'p']

def https : List Char := ['h', 't', 't', 'p', 's']

/-- `checkURL`: the scheme, the user and the port of a URL, before anything is connected to. -/
def Client.checkURL (c : Client) (u : URL) : Except FetchError Unit :=
  if u.scheme ≠ http ∧ u.scheme ≠ https then .error (.scheme u.scheme)
  else if u.user.isSome ∨ u.hostname = [] then .error .userinfo
  else
    let port := if u.port = [] then
        if u.scheme = http then ['8', '0'] else ['4', '4', '3']
      else u.port
    match parseUint16 port with
    | none => .error (.port port)
    | some p => if p ∈ c.ports then .ok () else .error (.port port)

/-- A request that `Get` sends. -/
structure Request where
  url : URL
  userAgent : Option (List Char)
  accept : Option (List Char)
  acceptLanguage : List Char
  deriving DecidableEq

/-- What reading the body at a place yields. -/
inductive Chunk
  | byte (b : UInt8)
  | eof
  | broken
  deriving DecidableEq

/-- An answer, whose body may have no end. -/
structure Reply where
  status : ℕ
  location : List Char
  contentType : List Char
  body : ℕ → Chunk

/-- What the network does about one request. -/
structure Exchange where
  /-- A connection that an earlier request has left open is used. -/
  idle : Bool
  /-- What the host of the URL is resolved to by then. -/
  answers : List TCPAddr
  /-- The second family of the addresses is tried too, before the first is through. -/
  fallback : Bool
  /-- Who accepts a connection. -/
  accepts : TCPAddr → Bool
  reply : Option Reply

/-- What it does about the requests of a fetch, one after the other. -/
abbrev Network := ℕ → Exchange

/-- `Response`. -/
structure Response where
  url : URL
  contentType : List Char
  charset : List Char
  body : List UInt8
  truncated : Bool
  deriving DecidableEq

/-- What comes of a fetch, with the requests that were sent and the connections that were begun for
them. -/
structure Fetch (α : Type) where
  requests : List Request
  connections : List TCPAddr
  outcome : Except FetchError α

section Get

variable {c : Client} {u : URL} {via : List Request} {t : TCPAddr} {e : Exchange}

-- `netip.ParseAddrPort`, and what the dialer writes for an address
variable (parseAddrPort : List Char → Option TCPAddr) (addrString : TCPAddr → List Char)
  -- `url.Parse`, `String` of a URL, and a location taken relative to a URL
  (parse : List Char → Option URL) (urlString : URL → List Char)
  (resolve : URL → List Char → Option URL)
  -- `mime.ParseMediaType`: the type and the charset
  (parseMediaType : List Char → Option (List Char × List Char))

/-- `Control`: whether the address may be connected to. -/
def Client.Control (c : Client) (address : List Char) : Bool :=
  match parseAddrPort address with
  | none => false
  | some ap => !(!decide (ap.port ∈ c.ports) || !c.allowAddr ap.addr)

/-- The connections that are begun to addresses in turn, up to the first that is accepted. -/
def Client.dialSerial (c : Client) (accepts : TCPAddr → Bool) : List TCPAddr → List TCPAddr
  | [] => []
  | t :: rest =>
    if c.Control parseAddrPort (addrString t) then
      if accepts t then [t] else t :: c.dialSerial accepts rest
    else c.dialSerial accepts rest

/-- Both addresses are of one family. -/
def sameFamily (s t : TCPAddr) : Bool :=
  s.addr.Unmap.Is6 == t.addr.Unmap.Is6

/-- The connections that are begun for a request: to the addresses of the family of the first, and
to the others after them or next to them. -/
def Client.dial (c : Client) (e : Exchange) : List TCPAddr :=
  if e.idle then [] else
  match e.answers with
  | [] => []
  | t :: _ =>
    let primaries := c.dialSerial parseAddrPort addrString e.accepts
      (e.answers.filter (sameFamily t))
    let fallbacks := c.dialSerial parseAddrPort addrString e.accepts
      (e.answers.filter fun s => !sameFamily t s)
    if e.fallback ∨ !primaries.any e.accepts then primaries ++ fallbacks else primaries

/-- `CheckRedirect`, with the requests that have been sent. -/
def Client.CheckRedirect (c : Client) (u : URL) (via : List Request) : Except FetchError Unit :=
  if c.maxRedirects < via.length then .error (.stopped c.maxRedirects) else c.checkURL u

/-- The answers that redirect. -/
def redirects (r : Reply) : Bool :=
  r.status ∈ [301, 302, 303, 307, 308] ∧ r.location ≠ []

/-- `Do` of the HTTP client: it sends a request, and another one for each redirect. -/
def Client.Do (c : Client) (net : Network) (via : List Request) (req : Request) :
    Fetch (Reply × URL) :=
  let e := net via.length
  let begun := c.dial parseAddrPort addrString e
  if e.idle ∨ begun.any e.accepts then
    match e.reply with
    | none => ⟨[req], begun, .error .get⟩
    | some r =>
      if redirects r then
        match resolve req.url r.location with
        | none => ⟨[req], begun, .error .get⟩
        | some u =>
          match _hcheck : c.CheckRedirect u (via ++ [req]) with
          | .error err => ⟨[req], begun, .error err⟩
          | .ok () =>
            let rest := c.Do net (via ++ [req]) { req with url := u }
            ⟨req :: rest.requests, begun ++ rest.connections, rest.outcome⟩
      else ⟨[req], begun, .ok (r, req.url)⟩
  else ⟨[req], begun, .error .get⟩
termination_by (c.maxRedirects - via.length).toNat
decreasing_by
  simp only [Client.CheckRedirect] at _hcheck
  split at _hcheck
  · cases _hcheck
  · next hle =>
    rw [length_append, length_singleton] at hle ⊢
    omega

/-- `io.ReadAll` of a body of which no more than so many bytes are read. -/
def readAll (body : ℕ → Chunk) : ℕ → ℕ → Except FetchError (List UInt8)
  | 0, _ => .ok []
  | limit + 1, i =>
    match body i with
    | .eof => .ok []
    | .broken => .error .readBody
    | .byte b => (readAll body limit (i + 1)).map (b :: ·)

/-- `maxBytes + 1` as a limit, with the 64 bits it is computed with. -/
def limit (maxBytes : ℕ) : ℕ :=
  if maxBytes + 1 < 2 ^ 63 then maxBytes + 1 else 0

/-- What `Get` makes of an answer. -/
def respond (maxBytes : ℕ) (r : Reply) (u : URL) : Except FetchError Response :=
  if r.status < 200 ∨ 299 < r.status then .error (.status r.status) else do
    let (contentType, charset) := (parseMediaType r.contentType).getD ([], [])
    let body ← readAll r.body (limit maxBytes) 0
    if maxBytes < body.length then
      return ⟨u, contentType, charset, body.take maxBytes, true⟩
    else
      return ⟨u, contentType, charset, body, false⟩

/-- `Get`. -/
def Client.Get (c : Client) (net : Network) (rawURL accept : List Char) (maxBytes : ℕ) :
    Fetch Response :=
  match parse rawURL with
  | none => ⟨[], [], .error .notURL⟩
  | some u =>
    match c.checkURL u with
    | .error err => ⟨[], [], .error err⟩
    | .ok () =>
      match parse (urlString u) with
      | none => ⟨[], [], .error .notRequest⟩
      | some sent =>
        let userAgent := if c.userAgent ≠ [] then some c.userAgent else none
        let accept := if accept ≠ [] then some accept else none
        let language := "ja,en;q=0.8".toList
        let fetch := c.Do parseAddrPort addrString resolve net []
          ⟨sent, userAgent, accept, language⟩
        ⟨fetch.requests, fetch.connections,
          fetch.outcome.bind fun (r, u) => respond parseMediaType maxBytes r u⟩

variable {parseAddrPort addrString parse urlString resolve parseMediaType}

theorem Client.scheme_of_checkURL (h : c.checkURL u = .ok ()) :
    u.scheme = http ∨ u.scheme = https := by
  unfold checkURL at h
  split at h
  · cases h
  · next hscheme => exact Decidable.or_iff_not_not_and_not.mpr hscheme

theorem Client.checkURL_of_checkRedirect (h : c.CheckRedirect u via = .ok ()) :
    (via.length : ℤ) ≤ c.maxRedirects ∧ c.checkURL u = .ok () := by
  unfold CheckRedirect at h
  split at h
  · cases h
  · next hle => exact ⟨not_lt.mp hle, h⟩

theorem Client.control_dialSerial {accepts : TCPAddr → Bool}
    {list : List TCPAddr} (h : t ∈ c.dialSerial parseAddrPort addrString accepts list) :
    c.Control parseAddrPort (addrString t) = true := by
  induction list with
  | nil => cases h
  | cons _ _ ih =>
    unfold dialSerial at h
    split at h
    · next hcontrol =>
      split at h
      · rwa [mem_singleton.mp h]
      · obtain rfl | hrest := mem_cons.mp h
        · exact hcontrol
        · exact ih hrest
    · exact ih h

/-- **Whoever answers**, a connection is begun only to what `Control` has looked at. -/
theorem Client.control_dial (h : t ∈ c.dial parseAddrPort addrString e) :
    c.Control parseAddrPort (addrString t) = true := by
  unfold dial at h
  split at h
  · cases h
  · split at h
    · cases h
    · simp only at h
      split at h
      · exact (mem_append.mp h).elim control_dialSerial control_dialSerial
      · exact control_dialSerial h

/-- What all connections, and all requests but the first, of a fetch have passed. -/
structure Checked (c : Client) (parseAddrPort : List Char → Option TCPAddr)
    (addrString : TCPAddr → List Char) (sent : ℕ) (fetch : Fetch (Reply × URL)) : Prop where
  connections : ∀ t ∈ fetch.connections, c.Control parseAddrPort (addrString t) = true
  length : fetch.requests.length ≤ (c.maxRedirects - sent).toNat + 1
  requests : ∀ r ∈ fetch.requests.tail, c.checkURL r.url = .ok ()

theorem Checked.last {sent : ℕ} (req : Request) (outcome : Except FetchError (Reply × URL)) :
    Checked c parseAddrPort addrString sent
      ⟨[req], c.dial parseAddrPort addrString e, outcome⟩ where
  connections _ := Client.control_dial
  length := Nat.le_add_left 1 _
  requests _ h := nomatch h

/-- A request, and what its answer redirects to. -/
theorem Checked.redirect {req : Request}
    {rest : Fetch (Reply × URL)} (hcheck : c.CheckRedirect u (via ++ [req]) = .ok ())
    (hhead : ∃ tail, rest.requests = { req with url := u } :: tail)
    (hrest : Checked c parseAddrPort addrString (via ++ [req]).length rest) :
    Checked c parseAddrPort addrString via.length
      ⟨req :: rest.requests, c.dial parseAddrPort addrString e ++ rest.connections,
        rest.outcome⟩ where
  connections t ht := (mem_append.mp ht).elim Client.control_dial (hrest.connections t)
  length := by
    obtain ⟨hle, -⟩ := Client.checkURL_of_checkRedirect hcheck
    have hlength := hrest.length
    rw [length_append, length_singleton] at hle hlength
    rw [length_cons]
    omega
  requests r hr := by
    obtain ⟨tail, htail⟩ := hhead
    have hrequests := hrest.requests
    simp only [tail_cons] at hr
    rw [htail] at hr hrequests
    obtain rfl | hr := mem_cons.mp hr
    · exact (Client.checkURL_of_checkRedirect hcheck).2
    · exact hrequests r hr

theorem Client.head_do (c : Client) (net : Network) (via : List Request) (req : Request) :
    ∃ tail, (c.Do parseAddrPort addrString resolve net via req).requests = req :: tail := by
  rw [Client.Do]
  simp only
  repeat' split
  all_goals exact ⟨_, rfl⟩

/-- **Over all redirects**, what is connected to and what is asked for has been looked at. -/
theorem Client.checked_do (c : Client) (net : Network) (via : List Request) (req : Request) :
    Checked c parseAddrPort addrString via.length
      (c.Do parseAddrPort addrString resolve net via req) := by
  induction via, req using Client.Do.induct parseAddrPort addrString resolve c net with
  | case1 _ req _ _ hopen hreply =>
    rw [Client.Do, if_pos hopen, hreply]
    exact Checked.last req _
  | case2 _ req _ _ hopen _ hreply hredirects hu =>
    rw [Client.Do, if_pos hopen, hreply]
    simp only [hredirects, if_true, hu]
    exact Checked.last req _
  | case3 _ req _ _ hopen _ hreply hredirects _ hu _ hcheck =>
    rw [Client.Do, if_pos hopen, hreply]
    simp only [hredirects, if_true, hu]
    split
    · exact Checked.last req _
    · next hok => exact nomatch hcheck.symm.trans hok
  | case4 _ _ _ _ hopen _ hreply hredirects _ hu hcheck ih =>
    rw [Client.Do, if_pos hopen, hreply]
    simp only [hredirects, if_true, hu]
    split
    · next herr => exact nomatch hcheck.symm.trans herr
    · exact Checked.redirect hcheck (Client.head_do c net _ _) ih
  | case5 _ req _ _ hopen _ hreply hredirects =>
    rw [Client.Do, if_pos hopen, hreply]
    simp only [hredirects]
    exact Checked.last req _
  | case6 _ req _ _ hopen =>
    rw [Client.Do, if_neg hopen]
    exact Checked.last req _

/-- No more of a body is returned than was asked for. -/
theorem length_respond {maxBytes : ℕ} {r : Reply} {res : Response}
    (h : respond parseMediaType maxBytes r u = .ok res) : res.body.length ≤ maxBytes := by
  unfold respond at h
  split at h
  · cases h
  · cases hbody : readAll r.body (limit maxBytes) 0 with
    | error =>
      rw [hbody] at h
      cases h
    | ok =>
      rw [hbody] at h
      simp only [bind, Except.bind] at h
      split at h
      · cases h
        exact length_take_le _ _
      · next hle =>
        cases h
        exact not_lt.mp hle

theorem publicAddr_unmap (a : Addr) : PublicAddr a.Unmap = PublicAddr a := by
  match a with
  | .invalid | .v4 b => rfl
  | .v6 b zone =>
    by_cases hmapped : mapped.Mem b
    · rw [unmap_mapped hmapped, publicAddr_mapped hmapped]
    · rw [unmap_v6 hmapped]

/-- What `Control` lets pass has one of the ports and an address that is allowed. -/
theorem Client.allowed_of_control (hdial : ∀ t ap, parseAddrPort (addrString t) = some ap →
      ap.addr = t.addr.Unmap ∧ ap.port = t.port)
    (h : c.Control parseAddrPort (addrString t) = true) :
    t.port ∈ c.ports ∧ c.allowAddr t.addr.Unmap = true := by
  unfold Control at h
  split at h
  · cases h
  · next ap hparse =>
    obtain ⟨haddr, hport⟩ := hdial t ap hparse
    rw [← haddr, ← hport]
    simpa using h

variable (parseAddrPort addrString parse urlString resolve parseMediaType) in
/-- All that the HTTP client does for `Get` has been looked at, and an outcome is a response to what
it has answered with. -/
theorem Client.get_cases (c : Client) (net : Network) (rawURL accept : List Char) (maxBytes : ℕ) :
    ∃ fetch : Fetch (Reply × URL), Checked c parseAddrPort addrString 0 fetch ∧
      (c.Get parseAddrPort addrString parse urlString resolve parseMediaType net rawURL accept
        maxBytes) =
      ⟨fetch.requests, fetch.connections,
        fetch.outcome.bind fun (r, u) => respond parseMediaType maxBytes r u⟩ := by
  have hnone : ∀ err, Checked c parseAddrPort addrString 0 ⟨[], [], .error err⟩ := fun _ =>
    ⟨fun _ h => absurd h not_mem_nil, Nat.zero_le _, fun _ h => absurd h not_mem_nil⟩
  unfold Get
  split
  · exact ⟨_, hnone _, rfl⟩
  · split
    · exact ⟨_, hnone _, rfl⟩
    · split
      · exact ⟨_, hnone _, rfl⟩
      · exact ⟨_, c.checked_do net [] _, rfl⟩

/-- **Nothing private is fetched.** An address that is denied is refused, just if it has no zone or
more than `Prefix.Contains` tells it; and whatever the URL, the redirects and the answers of the
lookups are, each connection goes to an address that passed and to one of the ports, the redirects
that are followed are as many as allowed and to URLs of the two schemes, and a response has as many
bytes as were asked for. -/
theorem fetches_checked (hdial : ∀ t ap, parseAddrPort (addrString t) = some ap →
      ap.addr = t.addr.Unmap ∧ ap.port = t.port) :
    (∀ a, (Denied a → PublicAddr a = false) ↔ a.zone = [] ∨ ¬ OnlyByPrefix a) ∧
    ∀ (opts : Options) (net : Network) (rawURL accept : List Char) (maxBytes : ℕ),
      let c := New opts
      let fetch := c.Get parseAddrPort addrString parse urlString resolve parseMediaType net rawURL
        accept maxBytes
      (∀ t ∈ fetch.connections, t.port ∈ c.ports ∧ c.allowAddr t.addr.Unmap = true ∧
        (opts.allowAddr = none → PublicAddr t.addr = true)) ∧
      fetch.requests.tail.length ≤ c.maxRedirects.toNat ∧
      (∀ r ∈ fetch.requests.tail, r.url.scheme = http ∨ r.url.scheme = https) ∧
      ∀ res, fetch.outcome = .ok res → res.body.length ≤ maxBytes := by
  refine ⟨refused_iff, fun opts net rawURL accept maxBytes => ?_⟩
  obtain ⟨fetch, hchecked, hget⟩ := Client.get_cases parseAddrPort addrString parse urlString
    resolve parseMediaType (New opts) net rawURL accept maxBytes
  simp only [hget]
  refine ⟨fun t ht => ?_, ?_, fun r hr => ?_, fun res hres => ?_⟩
  · obtain ⟨hport, hallow⟩ := Client.allowed_of_control hdial (hchecked.connections t ht)
    refine ⟨hport, hallow, fun hopts => ?_⟩
    rw [← publicAddr_unmap]
    simpa only [New, hopts, Option.getD_none] using hallow
  · have hlength := hchecked.length
    rw [length_tail]
    omega
  · exact Client.scheme_of_checkURL (hchecked.requests r hr)
  · cases houtcome : fetch.outcome with
    | error =>
      rw [houtcome] at hres
      exact nomatch hres
    | ok =>
      rw [houtcome] at hres
      exact length_respond hres

end Get

/-- A site of the internet, as `netip.ParseAddrPort` reads it. -/
def site : TCPAddr := ⟨.v4 0x5db8d70e, 443⟩

def siteString : List Char := "93.184.215.14:443".toList

/-- `netip.ParseAddrPort`, of that one text. -/
def parseSite (s : List Char) : Option TCPAddr := if s = siteString then some site else none

/-- What the dialer writes, of that one address. -/
def writeSite (t : TCPAddr) : List Char := if t = site then siteString else []

/-- The page that is fetched. -/
def page : URL := ⟨https, none, "site.example".toList, [], "/".toList⟩

/-- The name is resolved to the site for the first request, which is redirected, and to a loopback
address before the site for the second one. -/
def rebinding : Network := fun n =>
  { idle := false
    answers := if n = 0 then [site] else [⟨.v4 0x7f000001, 443⟩, site]
    fallback := false
    accepts := fun _ => true
    reply := some
      { status := if n = 0 then 302 else 200
        location := ['/']
        contentType := []
        body := fun _ => .byte 120 } }

/-- An answer that has changed by the second lookup leads nowhere else. -/
theorem fetches_checked_rebinding : PublicAddr (.v4 0x7f000001) = false ∧
    let fetch := (New ⟨[], 0, none, none⟩).Get parseSite writeSite (fun _ => some page)
      (fun _ => "https://site.example/".toList) (fun u _ => some u) (fun _ => none) rebinding
      "https://site.example/".toList [] 2
    (∀ t ∈ fetch.connections, PublicAddr t.addr = true) ∧ fetch.requests.tail.length ≤ 3 ∧
      ∀ res, fetch.outcome = .ok res → res.body.length ≤ 2 := by
  have hdial : ∀ t ap, parseSite (writeSite t) = some ap →
      ap.addr = t.addr.Unmap ∧ ap.port = t.port := by
    intro t ap h
    by_cases ht : t = site
    · rw [writeSite, if_pos ht, parseSite, if_pos rfl] at h
      cases h
      rw [ht]
      exact ⟨rfl, rfl⟩
    · rw [writeSite, if_neg ht, parseSite, if_neg (by decide)] at h
      exact nomatch h
  obtain ⟨hrefused, hfetch⟩ := @fetches_checked parseSite writeSite (fun _ => some page)
    (fun _ => "https://site.example/".toList) (fun u _ => some u) (fun _ => none) hdial
  obtain ⟨hconnections, hredirects, -, hbody⟩ := hfetch ⟨[], 0, none, none⟩ rebinding
    "https://site.example/".toList [] 2
  have hdenied : Denied (.v4 0x7f000001) := (denied_v4 _).mpr (by decide)
  exact ⟨(hrefused _).mpr (.inl rfl) hdenied, fun t ht => (hconnections t ht).2.2 rfl, hredirects,
    hbody⟩

/-- **A zone gets an address past the ranges**: the one with `127.0.0.1` in it passes with any. -/
theorem fetches_checked_zone : ∃ a : Addr, a = .v6 0x0064ff9b00000000000000007f000001
    "eth0".toList ∧
    Denied a ∧ PublicAddr a = true := by
  have hloopback : Reserved 0x7f000001 := by decide
  refine ⟨_, rfl, .inr (.inr ⟨_, ⟨.inr (by decide), by decide⟩, hloopback⟩), ?_⟩
  exact (publicAddr_zone (by decide) (by decide)).mpr (by decide)

end SafeHttp

end Hibari
