import Hibari.GoText
import Hibari.InternetAddr

/-!
# The address of a client

A request comes from the address that the connection has, or – where that is a proxy that is trusted –
from the one that the proxies wrote down: each appends the address of its own peer to the header
`X-Forwarded-For`. What stands left of that the client may have written itself.
`resolveClientIP` (`httpx/clientip.go`) reads the header from the right and stops at the first
address that is no trusted proxy.

That element is the one that the first proxy appended, whatever stands before it: the header lines
are joined and split again, and a split undoes a comma where it stands (`hops_appendHop`), so that
what is appended is the last element however it is appended. **The address cannot be forged** is
`resolveClientIP_forwarded`.
-/

namespace Hibari

open List

open GoText (isSpace)

/-- What `netip` reads: an address, and an address with a port. Nothing is asked of the two. -/
structure Netip where
  ParseAddr : List Char → Option Addr
  ParseAddrPort : List Char → Option (Addr × ℕ)

/-- `strings.TrimSpace`. -/
def TrimSpace (text : List Char) : List Char :=
  ((text.dropWhile isSpace).reverse.dropWhile isSpace).reverse

abbrev TrustedProxies := List Prefix

def TrustedProxies.contains (trusted : TrustedProxies) (addr : Addr) : Bool :=
  trusted.any fun p => p.Contains addr

/-- `strings.Split(strings.Join(lines, ","), ",")`. -/
def hops (lines : List (List Char)) : List (List Char) := ([','].intercalate lines).splitOn ','

variable (netip : Netip) (trusted : TrustedProxies)

/-- The loop of `resolveClientIP`, over what is left of the hops, the last one first. -/
def walkHops (client : Addr) : List (List Char) → Addr
  | [] => client
  | hop :: rest =>
    match netip.ParseAddr (TrimSpace hop) with
    | none => client
    | some addr =>
      if !trusted.contains addr.Unmap then addr.Unmap else walkHops addr.Unmap rest

def resolveClientIP (remoteAddr : List Char) (forwardedFor : List (List Char)) : Addr :=
  match netip.ParseAddrPort remoteAddr with
  | none => .invalid
  | some (addr, _) =>
    if trusted.length = 0 || !trusted.contains addr.Unmap then addr.Unmap
    else walkHops netip trusted addr.Unmap (hops forwardedFor).reverse

/-! ## What proxies append -/

/-- What a proxy writes of its peer: on a line of its own, or after a comma on the last line. -/
structure ForwardedHop where
  peer : Addr
  text : List Char
  newLine : Bool
  /-- It is one element of a list, and reads as the address. -/
  element : ',' ∉ text
  reads : netip.ParseAddr (TrimSpace text) = some peer

/-- The header lines with what a proxy appends. -/
def appendHop (lines : List (List Char)) (hop : ForwardedHop netip) : List (List Char) :=
  match lines.getLast? with
  | none => [hop.text]
  | some line =>
    if hop.newLine then lines ++ [hop.text] else lines.dropLast ++ [line ++ ',' :: hop.text]

variable {netip} {trusted} {lines : List (List Char)} {remoteAddr : List Char} {remote : Addr}
  {port : ℕ}

/-- Lines are joined with a comma between them. -/
theorem intercalate_concat {line : List Char} (hlines : lines ≠ []) :
    [','].intercalate (lines ++ [line]) = [','].intercalate lines ++ ',' :: line := by
  induction lines with
  | nil => exact absurd rfl hlines
  | cons l lines ih =>
    cases lines with
    | nil => simp
    | cons l' lines =>
      have hrest := ih (cons_ne_nil _ _)
      rw [cons_append] at hrest
      rw [cons_append, cons_append, intercalate_cons_cons, hrest,
        intercalate_cons_cons, append_assoc, append_assoc]
      rw [append_assoc]

/-- **What is appended is the last element**, and the others stay. -/
theorem hops_appendHop (lines : List (List Char)) (hop : ForwardedHop netip) :
    ∃ before, hops (appendHop netip lines hop) = before ++ [hop.text] ∧
      (lines ≠ [] → before = hops lines) := by
  have hsplit : ∀ l, (l ++ ',' :: hop.text).splitOn ',' = l.splitOn ',' ++ [hop.text] := fun l => by
    rw [splitOn_append_cons_self, splitOn_eq_singleton hop.element]
  unfold appendHop hops
  cases hlast : lines.getLast? with
  | none =>
    obtain rfl := getLast?_eq_none_iff.mp hlast
    refine ⟨[], ?_, fun h => absurd rfl h⟩
    show ([','].intercalate [hop.text]).splitOn ',' = [hop.text]
    rw [intercalate_singleton, splitOn_eq_singleton hop.element]
  | some line =>
    refine ⟨_, ?_, fun _ => rfl⟩
    obtain ⟨front, rfl⟩ := getLast?_eq_some_iff.mp hlast
    show (List.intercalate _ (if hop.newLine then _ else _)).splitOn ',' = _
    split_ifs
    · rw [intercalate_concat (append_ne_nil_of_right_ne_nil _ (cons_ne_nil _ _)), hsplit]
    · rw [dropLast_concat]
      cases front with
      | nil =>
        rw [nil_append, nil_append, intercalate_singleton, intercalate_singleton, hsplit]
      | cons l front =>
        rw [intercalate_concat (cons_ne_nil _ _), intercalate_concat (cons_ne_nil _ _),
          ← cons_append, ← append_assoc, hsplit]

theorem appendHop_ne_nil (lines : List (List Char)) (hop : ForwardedHop netip) :
    appendHop netip lines hop ≠ [] := by
  unfold appendHop
  cases lines.getLast? with
  | none => exact cons_ne_nil _ _
  | some line => split_ifs <;> simp

/-- What proxies append one after another comes last, in their order. -/
theorem hops_foldl (appended : List (ForwardedHop netip)) (hlines : lines ≠ []) :
    hops (appended.foldl (appendHop netip) lines) = hops lines ++ appended.map (·.text) := by
  induction appended generalizing lines with
  | nil => exact (append_nil _).symm
  | cons hop appended ih =>
    obtain ⟨before, happend, hbefore⟩ := hops_appendHop lines hop
    rw [foldl_cons, ih (appendHop_ne_nil lines hop), happend, hbefore hlines, map_cons,
      append_assoc]
    rfl

/-! ## The walk -/

/-- Trusted proxies are passed over. -/
theorem walkHops_trusted {passed : List (ForwardedHop netip)}
    (htrusted : ∀ hop ∈ passed, trusted.contains hop.peer.Unmap) (rest : List (List Char))
    (client : Addr) :
    ∃ client', walkHops netip trusted client (passed.map (·.text) ++ rest) =
      walkHops netip trusted client' rest := by
  induction passed generalizing client with
  | nil => exact ⟨client, rfl⟩
  | cons hop passed ih =>
    obtain ⟨hhop, hpassed⟩ := forall_mem_cons.mp htrusted
    obtain ⟨client', h⟩ := ih hpassed hop.peer.Unmap
    refine ⟨client', Eq.trans ?_ h⟩
    rw [map_cons, cons_append, walkHops, hop.reads]
    simp only [hhop, Bool.not_true, Bool.false_eq_true, if_false]

theorem walkHops_untrusted (hop : ForwardedHop netip) (rest : List (List Char)) (client : Addr)
    (h : trusted.contains hop.peer.Unmap = false) :
    walkHops netip trusted client (hop.text :: rest) = hop.peer.Unmap := by
  rw [walkHops, hop.reads]
  simp only [h, Bool.not_false, if_true]

/-- **The address cannot be forged.** Behind a chain of trusted proxies, the first of which has the
connection of the client, it is the client's address, whatever header lines the client wrote; and an
untrusted peer is the client, whatever the header says. -/
theorem resolveClientIP_forwarded (hremote : netip.ParseAddrPort remoteAddr = some (remote, port)) :
    (trusted.contains remote.Unmap = true → ∀ (client : ForwardedHop netip)
      (proxies : List (ForwardedHop netip)), trusted.contains client.peer.Unmap = false →
      (∀ hop ∈ proxies, trusted.contains hop.peer.Unmap) → ∀ written : List (List Char),
      resolveClientIP netip trusted remoteAddr
        ((client :: proxies).foldl (appendHop netip) written) = client.peer.Unmap) ∧
    (trusted.contains remote.Unmap = false → ∀ forwardedFor : List (List Char),
      resolveClientIP netip trusted remoteAddr forwardedFor = remote.Unmap) := by
  unfold resolveClientIP
  simp only [hremote]
  constructor
  · intro hpeer client proxies hclient hproxies written
    have hsome : trusted.length ≠ 0 := fun hnone => by
      rw [eq_nil_of_length_eq_zero hnone] at hpeer
      exact Bool.false_ne_true hpeer
    rw [if_neg (by simp [hpeer, hsome])]
    obtain ⟨before, happend, -⟩ := hops_appendHop written client
    rw [foldl_cons, hops_foldl proxies (appendHop_ne_nil written client), happend,
      reverse_append, ← map_reverse, reverse_concat]
    obtain ⟨_, hwalk⟩ := walkHops_trusted (fun hop h => hproxies hop (mem_reverse.mp h))
      (client.text :: before.reverse) remote.Unmap
    rw [hwalk, walkHops_untrusted client _ _ hclient]
  · intro hpeer _
    rw [if_pos (by simp [hpeer])]

/-! ### A chain of two proxies -/

/-- A decimal number below 256, without leading zeros. -/
def readByte (text : List Char) : Option ℕ :=
  if text ≠ [] ∧ text.length ≤ 3 ∧ text.all Char.isDigit ∧ (text.head? = some '0' → text.length = 1) then
    (some (text.foldl (fun n c => 10 * n + (c.toNat - 48)) 0)).filter (· < 256)
  else none

/-- Addresses of four bytes are read, and no others. -/
def fourBytes : Netip where
  ParseAddr text := match (text.splitOn '.').mapM readByte with
    | some [a, b, c, d] => some (.v4 (BitVec.ofNat 32 (((a * 256 + b) * 256 + c) * 256 + d)))
    | _ => none
  ParseAddrPort text := match text.splitOn ':' with
    | [addr, port] => match (addr.splitOn '.').mapM readByte with
      | some [a, b, c, d] =>
        some (.v4 (BitVec.ofNat 32 (((a * 256 + b) * 256 + c) * 256 + d)),
          port.foldl (fun n c => 10 * n + (c.toNat - 48)) 0)
      | _ => none
    | _ => none

/-- The client of a chain of two proxies, which wrote the address of a proxy and a broken one. -/
theorem resolveClientIP_forwarded_proxies :
    resolveClientIP fourBytes [.v4 ⟨0xac100000, 12⟩] "172.16.0.3:443".toList
      ["1.2.3.4, 172.16.0.9,,x".toList ++ ", 203.0.113.9".toList, "172.16.0.2".toList] =
        .v4 0xcb007109 := by
  have hremote : fourBytes.ParseAddrPort "172.16.0.3:443".toList = some (.v4 0xac100003, 443) := by
    decide +kernel
  exact (resolveClientIP_forwarded hremote).1 (by decide +kernel)
    ⟨.v4 0xcb007109, " 203.0.113.9".toList, false, by decide +kernel, by decide +kernel⟩
    [⟨.v4 0xac100002, "172.16.0.2".toList, true, by decide +kernel, by decide +kernel⟩]
    (by decide +kernel) (by decide +kernel) ["1.2.3.4, 172.16.0.9,,x".toList]

end Hibari
