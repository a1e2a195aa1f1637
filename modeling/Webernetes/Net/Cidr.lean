/-
Webernetes.Net.Cidr — ranges of addresses.

An address of a range is handled as its text; the value that the text stands
for is read back from it (`ipToBigInt_formatValue`), but for an IPv6 address
that is printed as an IPv4 one (`IsMapped`).
-/
import Webernetes.Net.IpText
import Mathlib.Data.List.Induction
import Mathlib.Data.Nat.Bitwise

namespace Webernetes.Net

open Js

inductive Family where
  | v4
  | v6
  deriving DecidableEq

/-- `maxPrefix`. -/
def Family.maxPrefix : Family → Nat
  | .v4 => 32
  | .v6 => 128

def slash : CodeUnit := 47

def openBracket : CodeUnit := 91

def closeBracket : CodeUnit := 93

def normalizeIPLiteral (ip : JsString) : JsString :=
  if ip.head? = some openBracket ∧ ip.getLast? = some closeBracket then (ip.drop 1).dropLast else ip

def isIPLiteral (ip : JsString) : Bool := (parseIP (normalizeIPLiteral ip)).isSome

def ipFamily (ip : JsString) : Option Family :=
  (parseIP (normalizeIPLiteral ip)).map fun parsed => if isIPv4 parsed then .v4 else .v6

def ipToBigInt (ip : JsString) : Option Nat :=
  (parseIP (normalizeIPLiteral ip)).map fun parsed =>
    (if isIPv4 parsed then parsed.drop 12 else parsed).foldl (fun value byte => (value <<< 8) + byte) 0

def numberToIp (value : Nat) : JsString :=
  join [dot] ([(value >>> 24) &&& 255, (value >>> 16) &&& 255, (value >>> 8) &&& 255, value &&& 255].map decimal)

def bytesOfValue (value : Nat) : List Nat :=
  (List.range 16).map fun index => (value >>> ((15 - index) * 8)) &&& 0xff

def bigIntToIPv6 (value : Nat) : JsString := formatIP (bytesOfValue value)

/-! ## Values -/

/-- The last `n` bytes of a value, the highest first. -/
def lastBytes (n value : Nat) : List Nat :=
  (List.range n).map fun index => (value >>> ((n - 1 - index) * 8)) &&& 0xff

theorem lastBytes_succ (n value : Nat) : lastBytes (n + 1) value = lastBytes n (value / 256) ++ [value % 256] := by
  rw [lastBytes, List.range_succ, List.map_append, List.map_singleton, lastBytes]
  congr 1
  · refine List.map_congr_left fun index hindex => ?_
    have hlt := List.mem_range.mp hindex
    rw [show (n + 1 - 1 - index) * 8 = 8 + (n - 1 - index) * 8 by omega, Nat.shiftRight_add,
      Nat.shiftRight_eq_div_pow value]
  · rw [Nat.add_sub_cancel, Nat.sub_self, Nat.zero_mul, and_0xff]
    rfl

/-- By induction on the number of bytes: they tell the value up to that
many. -/
theorem foldl_lastBytes (n value : Nat) :
    (lastBytes n value).foldl (fun value byte => (value <<< 8) + byte) 0 = value % 256 ^ n := by
  induction n generalizing value with
  | zero => simp [lastBytes, Nat.mod_one]
  | succ n ih =>
    have hpow : 256 ^ (n + 1) = 256 * 256 ^ n := Nat.pow_succ'
    rw [lastBytes_succ, List.foldl_concat, ih, Nat.shiftLeft_eq, hpow, Nat.mod_mul]
    omega

theorem bytesOfValue_eq (value : Nat) : bytesOfValue value = lastBytes 16 value := rfl

theorem lt_of_mem_lastBytes {n value b : Nat} (h : b ∈ lastBytes n value) : b < 256 := by
  obtain ⟨index, -, rfl⟩ := List.mem_map.mp h
  rw [and_0xff]
  exact Nat.mod_lt _ (by decide)

theorem length_bytesOfValue (value : Nat) : (bytesOfValue value).length = 16 := by
  simp [bytesOfValue]

theorem numberToIp_eq (value : Nat) : numberToIp value = join [dot] ((lastBytes 4 value).map decimal) := rfl

/-! ## Texts -/

/-- The value is that of an IPv6 address which is printed as an IPv4 one. -/
def IsMapped (value : Nat) : Bool := isIPv4 (bytesOfValue value)

theorem mem_join {sep u : CodeUnit} {parts : List JsString} (h : u ∈ join [sep] parts) :
    u = sep ∨ ∃ part ∈ parts, u ∈ part := by
  induction parts with
  | nil => cases h
  | cons part parts ih =>
    cases parts with
    | nil => exact .inr ⟨part, by simp, by simpa [join] using h⟩
    | cons part' parts =>
      have hsplit : u ∈ part ++ sep :: join [sep] (part' :: parts) := by simpa [join] using h
      rcases List.mem_append.mp hsplit with h | h
      · exact .inr ⟨part, by simp, h⟩
      · rcases List.mem_cons.mp h with rfl | h
        · exact .inl rfl
        · rcases ih h with heq | ⟨p, hp, hu⟩
          · exact .inl heq
          · exact .inr ⟨p, List.mem_cons_of_mem _ hp, hu⟩

theorem isSome_hexDigit_of_mem_formatGroups {groups : List Nat} {u : CodeUnit}
    (h : u ∈ formatGroups groups) : u = colon ∨ (hexDigit u).isSome = true := by
  rcases mem_join h with rfl | ⟨part, hpart, hu⟩
  · exact .inl rfl
  · obtain ⟨g, -, rfl⟩ := List.mem_map.mp hpart
    exact .inr (isSome_hexDigit_of_mem hu)

theorem openBracket_not_mem_formatGroups (groups : List Nat) : openBracket ∉ formatGroups groups := by
  intro h
  rcases isSome_hexDigit_of_mem_formatGroups h with heq | hdigit
  · exact absurd heq (by decide)
  · exact absurd hdigit (by decide)

theorem openBracket_not_mem_octets (octets : List Nat) : openBracket ∉ join [dot] (octets.map decimal) := by
  intro h
  rcases mem_join h with heq | ⟨part, hpart, hu⟩
  · exact absurd heq (by decide)
  · obtain ⟨n, -, rfl⟩ := List.mem_map.mp hpart
    exact not_mem_decimal (by decide) n hu

theorem openBracket_not_mem_formatIP (ip : List Nat) : openBracket ∉ formatIP ip := by
  rw [formatIP]
  split
  · exact openBracket_not_mem_octets _
  · dsimp only
    split
    · exact openBracket_not_mem_formatGroups _
    · simp only [List.mem_append, not_or]
      exact ⟨⟨openBracket_not_mem_formatGroups _, by decide⟩, openBracket_not_mem_formatGroups _⟩

theorem normalizeIPLiteral_of_not_mem {ip : JsString} (h : openBracket ∉ ip) : normalizeIPLiteral ip = ip := by
  rw [normalizeIPLiteral, if_neg]
  rintro ⟨hhead, -⟩
  exact h (List.mem_of_mem_head? hhead)

/-! ## What is parsed -/

/-- Bytes, at most as many as an address has. -/
structure Bytes (ip : List Nat) : Prop where
  lt : ∀ b ∈ ip, b < 256
  length : ip.length ≤ 16

theorem ipv4_of_parseIPv4Sloppy {value : JsString} {ip : List Nat} (h : parseIPv4Sloppy value = some ip) :
    ∃ a b c d, ip = ipv4 a b c d ∧ a < 256 ∧ b < 256 ∧ c < 256 ∧ d < 256 := by
  have hoctet : ∀ {part : JsString} {n : Nat}, parseOctet part = some n → n < 256 := by
    intro part n hpart
    simp only [parseOctet, Option.bind_eq_bind, Option.bind_eq_some_iff] at hpart
    obtain ⟨octet, -, hoctet⟩ := hpart
    split at hoctet
    · cases hoctet
    · cases hoctet
      omega
  unfold parseIPv4Sloppy at h
  split at h
  · simp only [Option.bind_eq_bind, Option.bind_eq_some_iff, Option.pure_def, Option.some.injEq] at h
    obtain ⟨a, ha, b, hb, c, hc, d, hd, rfl⟩ := h
    exact ⟨a, b, c, d, rfl, hoctet ha, hoctet hb, hoctet hc, hoctet hd⟩
  · cases h

theorem bytes_ipv4 {a b c d : Nat} (ha : a < 256) (hb : b < 256) (hc : c < 256) (hd : d < 256) :
    ∀ byte ∈ ipv4 a b c d, byte < 256 := by
  intro byte hbyte
  simp only [ipv4, List.mem_cons, List.not_mem_nil, or_false] at hbyte
  omega

/-- By induction on the groups there is room for. -/
theorem bytes_ipv6Groups (left : Nat) : ∀ {ip : List Nat} {ellipsis : Option Nat} {remaining : JsString}
    {ip' : List Nat} {ellipsis' : Option Nat} {remaining' : JsString},
    Bytes ip → ip.length + 2 * left = 16 → (∀ e ∈ ellipsis, e ≤ ip.length) →
    ipv6Groups left ip ellipsis remaining = some (ip', ellipsis', remaining') →
    Bytes ip' ∧ ∀ e ∈ ellipsis', e ≤ ip'.length := by
  induction left with
  | zero =>
    intro ip ellipsis remaining ip' ellipsis' remaining' hbytes _ hellipsis h
    cases h
    exact ⟨hbytes, hellipsis⟩
  | succ left ih =>
    intro ip ellipsis remaining ip' ellipsis' remaining' hbytes hlength hellipsis h
    rw [ipv6Groups] at h
    split at h
    · cases h
    · rename_i n c _
      split at h
      · cases h
      · split at h
        · split at h
          · cases h
          · split at h
            · cases h
            · rename_i hroom
              obtain ⟨ip4, hip4, heq⟩ := Option.map_eq_some_iff.mp h
              obtain ⟨a, b, c, d, rfl, ha, hb, hc, hd⟩ := ipv4_of_parseIPv4Sloppy hip4
              cases heq
              have hdrop : (ipv4 a b c d).drop 12 = [a, b, c, d] := rfl
              rw [hdrop]
              refine ⟨⟨fun byte hbyte => ?_, ?_⟩, fun e he => ?_⟩
              · rcases List.mem_append.mp hbyte with hbyte | hbyte
                · exact hbytes.lt byte hbyte
                · simp only [List.mem_cons, List.not_mem_nil, or_false] at hbyte
                  omega
              · simp only [List.length_append, List.length_cons, List.length_nil]
                simp only [ipv4Len, ipv6Len] at hroom
                omega
              · have hle := hellipsis e he
                rw [List.length_append]
                omega
        · have hgroup : Bytes (ip ++ [(n >>> 8) &&& 0xff, n &&& 0xff]) := by
            refine ⟨fun byte hbyte => ?_, ?_⟩
            · rcases List.mem_append.mp hbyte with hbyte | hbyte
              · exact hbytes.lt byte hbyte
              · simp only [and_0xff, List.mem_cons, List.not_mem_nil, or_false] at hbyte
                omega
            · simp only [List.length_append, List.length_cons, List.length_nil]
              omega
          have hroom : (ip ++ [(n >>> 8) &&& 0xff, n &&& 0xff]).length + 2 * left = 16 := by
            simp only [List.length_append, List.length_cons, List.length_nil]
            omega
          have hkept : ∀ e ∈ ellipsis, e ≤ (ip ++ [(n >>> 8) &&& 0xff, n &&& 0xff]).length := by
            intro e he
            have hle := hellipsis e he
            rw [List.length_append]
            omega
          have hnew : ∀ e ∈ some (ip ++ [(n >>> 8) &&& 0xff, n &&& 0xff]).length,
              e ≤ (ip ++ [(n >>> 8) &&& 0xff, n &&& 0xff]).length := by
            rintro e he
            cases he
            exact Nat.le_refl _
          dsimp only at h
          split at h
          · cases h
            exact ⟨hgroup, hkept⟩
          · cases h
          · split at h
            · cases h
            · split at h
              · split at h
                · cases h
                · split at h
                  · cases h
                    exact ⟨hgroup, hnew⟩
                  · exact ih hgroup hroom hnew h
              · exact ih hgroup hroom hkept h

theorem bytes_expandEllipsis {ip ip' : List Nat} {ellipsis : Option Nat} (hbytes : Bytes ip)
    (hellipsis : ∀ e ∈ ellipsis, e ≤ ip.length) (h : expandEllipsis ip ellipsis = some ip') :
    ip'.length = 16 ∧ ∀ b ∈ ip', b < 256 := by
  unfold expandEllipsis at h
  have hlength := hbytes.length
  split at h
  · split at h
    · cases h
    · cases h
      rename_i hlong
      simp only [ipv6Len] at hlong
      exact ⟨by omega, hbytes.lt⟩
  · rename_i at'
    split at h
    · cases h
      rename_i hshort
      have hle := hellipsis at' rfl
      simp only [ipv6Len] at hshort
      refine ⟨?_, fun b hb => ?_⟩
      · simp only [List.length_append, List.length_take, List.length_replicate, List.length_drop, ipv6Len]
        omega
      · simp only [List.mem_append, List.mem_replicate] at hb
        rcases hb with (hb | ⟨-, rfl⟩) | hb
        · exact hbytes.lt b (List.mem_of_mem_take hb)
        · decide
        · exact hbytes.lt b (List.mem_of_mem_drop hb)
    · cases h

theorem bytes_finishIPv6 {remaining : JsString} {ellipsis : Option Nat} {ip : List Nat}
    (hellipsis : ∀ e ∈ ellipsis, e ≤ 0) (h : finishIPv6 (ipv6Groups 8 [] ellipsis remaining) = some ip) :
    ip.length = 16 ∧ ∀ b ∈ ip, b < 256 := by
  unfold finishIPv6 at h
  split at h
  · rename_i hgroups
    obtain ⟨hbytes, hle⟩ := bytes_ipv6Groups 8 ⟨by simp, by simp⟩ rfl hellipsis hgroups
    exact bytes_expandEllipsis hbytes hle h
  · cases h

/-- What is parsed has sixteen bytes. -/
theorem bytes_parseIP {value : JsString} {ip : List Nat} (h : parseIP value = some ip) :
    ip.length = 16 ∧ ∀ b ∈ ip, b < 256 := by
  unfold parseIP at h
  split at h
  · cases h
  · split at h
    · obtain ⟨a, b, c, d, rfl, ha, hb, hc, hd⟩ := ipv4_of_parseIPv4Sloppy h
      exact ⟨rfl, bytes_ipv4 ha hb hc hd⟩
    · unfold parseIPv6Sloppy at h
      split at h
      · split at h
        · cases h
          exact ⟨rfl, fun b hb => by rw [List.eq_of_mem_replicate hb]; decide⟩
        · exact bytes_finishIPv6 (fun e he => by cases he; exact Nat.le_refl _) h
      · exact bytes_finishIPv6 (fun e he => by cases he) h

/-- The value that bytes stand for. -/
def valueOf (bytes : List Nat) : Nat := bytes.foldl (fun value byte => (value <<< 8) + byte) 0

theorem valueOf_lt {bytes : List Nat} (h : ∀ b ∈ bytes, b < 256) : valueOf bytes < 256 ^ bytes.length := by
  induction bytes using List.reverseRecOn with
  | nil => simp [valueOf]
  | append_singleton bytes b ih =>
    have ih := ih fun c hc => h c (List.mem_append_left _ hc)
    have hb := h b (by simp)
    rw [valueOf] at ih
    rw [valueOf, List.foldl_concat, List.length_append, List.length_singleton, Nat.pow_succ,
      Nat.shiftLeft_eq]
    omega

theorem ipToBigInt_lt {ip : JsString} {family : Family} {value : Nat} (hfamily : ipFamily ip = some family)
    (h : ipToBigInt ip = some value) : value < 2 ^ family.maxPrefix := by
  obtain ⟨parsed, hparsed, rfl⟩ := Option.map_eq_some_iff.mp h
  obtain ⟨hlength, hbytes⟩ := bytes_parseIP hparsed
  rw [ipFamily, hparsed, Option.map_some, Option.some.injEq] at hfamily
  subst hfamily
  cases hipv4 : isIPv4 parsed with
  | true =>
    have hlt : valueOf (parsed.drop 12) < 256 ^ (parsed.drop 12).length :=
      valueOf_lt fun b hb => hbytes b (List.mem_of_mem_drop hb)
    rw [List.length_drop, hlength] at hlt
    exact hlt.trans_eq (by decide)
  | false =>
    have hlt := valueOf_lt hbytes
    rw [hlength] at hlt
    exact hlt.trans_eq (by decide)

/-! ## Ranges -/

/-- A range of addresses that ends within its family. -/
structure CIDR where
  family : Family
  network : Nat
  size : Nat
  size_pos : 0 < size
  bounded : network + size ≤ 2 ^ family.maxPrefix

namespace CIDR

/-- The range of the addresses that share a prefix with the base. -/
def of (family : Family) (base prefixBits : Nat) (hbase : base < 2 ^ family.maxPrefix) : CIDR where
  family
  network := base / 2 ^ (family.maxPrefix - prefixBits) * 2 ^ (family.maxPrefix - prefixBits)
  size := 2 ^ (family.maxPrefix - prefixBits)
  size_pos := Nat.two_pow_pos _
  bounded := by
    have hsplit : 2 ^ family.maxPrefix = 2 ^ (family.maxPrefix - (family.maxPrefix - prefixBits))
        * 2 ^ (family.maxPrefix - prefixBits) := by
      rw [← Nat.pow_add, Nat.sub_add_cancel (Nat.sub_le _ _)]
    rw [hsplit] at hbase ⊢
    have hlt := Nat.div_lt_of_lt_mul ((Nat.mul_comm _ _).symm ▸ hbase)
    rw [← Nat.succ_mul]
    exact Nat.mul_le_mul_right _ hlt

variable (cidr : CIDR)

def broadcast : Nat := cidr.network + cidr.size - 1

def usableFirst : Nat :=
  if cidr.family = .v4 ∧ 2 < cidr.size then cidr.network + 1 else cidr.network

def usableLast : Nat :=
  if cidr.family = .v4 ∧ 2 < cidr.size then cidr.broadcast - 1 else cidr.broadcast

def contains (ip : JsString) : Bool :=
  ipFamily ip = some cidr.family
    && (ipToBigInt ip).any fun value => cidr.network ≤ value && value ≤ cidr.broadcast

def containsUsableAddress (ip : JsString) : Bool :=
  ipFamily ip = some cidr.family
    && (ipToBigInt ip).any fun value => cidr.usableFirst ≤ value && value ≤ cidr.usableLast

def formatValue (value : Nat) : JsString :=
  match cidr.family with
  | .v4 => numberToIp value
  | .v6 => bigIntToIPv6 value

def firstAddress : Option JsString :=
  if cidr.usableFirst ≤ cidr.usableLast then some (cidr.formatValue cidr.usableFirst) else none

def addressAfter (ip : JsString) : Option JsString :=
  match ipToBigInt ip with
  | none => none
  | some value =>
    if !cidr.containsUsableAddress ip || cidr.usableLast ≤ value then none
    else some (cidr.formatValue (value + 1))

/-- The range that a text is of; `valid` first. -/
def new (other : JsString → Option Int) (cidr : JsString) : Except JsString CIDR :=
  match cidr.splitOn slash with
  | [range, prefixText] =>
    match number other prefixText, hfamily : ipFamily range, hbase : ipToBigInt range with
    | some prefixBits, some family, some base =>
      if 0 ≤ prefixBits ∧ prefixBits ≤ family.maxPrefix then
        .ok (of family base prefixBits.toNat (ipToBigInt_lt hfamily hbase))
      else .error (js "Invalid CIDR range: " ++ cidr)
    | _, _, _ => .error (js "Invalid CIDR range: " ++ cidr)
  | _ => .error (js "Invalid CIDR range: " ++ cidr)

/-- How many addresses `addresses()` yields. -/
def count : Nat := cidr.usableLast + 1 - cidr.usableFirst

theorem usableFirst_le_usableLast : cidr.usableFirst ≤ cidr.usableLast := by
  have hpos := cidr.size_pos
  simp only [usableFirst, usableLast, broadcast]
  split <;> omega

theorem usableLast_lt : cidr.usableLast < 2 ^ cidr.family.maxPrefix := by
  have hpos := cidr.size_pos
  have hbounded := cidr.bounded
  simp only [usableLast, broadcast]
  split <;> omega

end CIDR

/-! ## Values and their texts -/

theorem valueOf_lastBytes {n value : Nat} (h : value < 256 ^ n) : valueOf (lastBytes n value) = value := by
  rw [valueOf, foldl_lastBytes, Nat.mod_eq_of_lt h]

theorem valueOf_bytesOfValue {value : Nat} (h : value < 2 ^ 128) : valueOf (bytesOfValue value) = value := by
  rw [bytesOfValue_eq]
  exact valueOf_lastBytes (h.trans_eq (by decide))

theorem lt_of_mem_bytesOfValue {value b : Nat} (h : b ∈ bytesOfValue value) : b < 256 :=
  @lt_of_mem_lastBytes 16 value b h

theorem parseIP_bigIntToIPv6 (value : Nat) : parseIP (bigIntToIPv6 value) = some (bytesOfValue value) :=
  parseIP_formatIP (length_bytesOfValue value) fun _ hb => lt_of_mem_bytesOfValue hb

theorem exists_octets (value : Nat) : ∃ a b c d, lastBytes 4 value = [a, b, c, d]
    ∧ a < 256 ∧ b < 256 ∧ c < 256 ∧ d < 256 := by
  have hbyte : ∀ b ∈ lastBytes 4 value, b < 256 := fun b hb => lt_of_mem_lastBytes hb
  have hlength : (lastBytes 4 value).length = 4 := by simp [lastBytes]
  match lastBytes 4 value, hlength, hbyte with
  | [a, b, c, d], _, hbyte =>
    exact ⟨a, b, c, d, rfl, hbyte a (by simp), hbyte b (by simp), hbyte c (by simp), hbyte d (by simp)⟩

theorem parseIP_numberToIp (value : Nat) :
    parseIP (numberToIp value) = some (List.replicate 10 0 ++ [0xff, 0xff] ++ lastBytes 4 value) := by
  obtain ⟨a, b, c, d, hoctets, ha, hb, hc, hd⟩ := exists_octets value
  rw [numberToIp_eq, hoctets, parseIP_octets ha hb hc hd]
  rfl

theorem isIPv4_octets (value : Nat) :
    isIPv4 (List.replicate 10 0 ++ [0xff, 0xff] ++ lastBytes 4 value) = true := by
  obtain ⟨a, b, c, d, hoctets, -⟩ := exists_octets value
  rw [hoctets]
  rfl

@[simp] theorem normalizeIPLiteral_numberToIp (value : Nat) :
    normalizeIPLiteral (numberToIp value) = numberToIp value :=
  normalizeIPLiteral_of_not_mem (openBracket_not_mem_octets _)

@[simp] theorem normalizeIPLiteral_bigIntToIPv6 (value : Nat) :
    normalizeIPLiteral (bigIntToIPv6 value) = bigIntToIPv6 value :=
  normalizeIPLiteral_of_not_mem (openBracket_not_mem_formatIP _)

theorem ipFamily_numberToIp (value : Nat) : ipFamily (numberToIp value) = some .v4 := by
  rw [ipFamily, normalizeIPLiteral_numberToIp, parseIP_numberToIp, Option.map_some, isIPv4_octets]
  rfl

theorem ipToBigInt_numberToIp {value : Nat} (h : value < 2 ^ 32) : ipToBigInt (numberToIp value) = some value := by
  have hdrop : (List.replicate 10 0 ++ [0xff, 0xff] ++ lastBytes 4 value).drop 12 = lastBytes 4 value := rfl
  rw [ipToBigInt, normalizeIPLiteral_numberToIp, parseIP_numberToIp, Option.map_some, isIPv4_octets,
    if_pos rfl, hdrop]
  exact congrArg some (valueOf_lastBytes (h.trans_eq (by decide)))

theorem ipFamily_bigIntToIPv6 (value : Nat) :
    ipFamily (bigIntToIPv6 value) = some (if IsMapped value then .v4 else .v6) := by
  rw [ipFamily, normalizeIPLiteral_bigIntToIPv6, parseIP_bigIntToIPv6, Option.map_some, IsMapped]

theorem ipToBigInt_bigIntToIPv6 {value : Nat} (h : IsMapped value = false) (hlt : value < 2 ^ 128) :
    ipToBigInt (bigIntToIPv6 value) = some value := by
  rw [ipToBigInt, normalizeIPLiteral_bigIntToIPv6, parseIP_bigIntToIPv6, Option.map_some,
    show isIPv4 (bytesOfValue value) = false from h, if_neg (by simp)]
  exact congrArg some (valueOf_bytesOfValue hlt)

theorem bytesOfValue_inj {v w : Nat} (hv : v < 2 ^ 128) (hw : w < 2 ^ 128)
    (h : bytesOfValue v = bytesOfValue w) : v = w := by
  rw [← valueOf_bytesOfValue hv, h, valueOf_bytesOfValue hw]

namespace CIDR

variable {cidr : CIDR}

/-- The value is printed as an address of the other family. -/
def Misprints (cidr : CIDR) (value : Nat) : Bool := cidr.family = .v6 && IsMapped value

theorem formatValue_inj {v w : Nat} (hv : v < 2 ^ cidr.family.maxPrefix)
    (hw : w < 2 ^ cidr.family.maxPrefix) (h : cidr.formatValue v = cidr.formatValue w) : v = w := by
  unfold formatValue at h
  cases hfamily : cidr.family with
  | v4 =>
    rw [hfamily] at hv hw h
    have hvalue := ipToBigInt_numberToIp hv
    rw [show numberToIp v = numberToIp w from h, ipToBigInt_numberToIp hw] at hvalue
    exact (Option.some.inj hvalue).symm
  | v6 =>
    rw [hfamily] at hv hw h
    have hparse := parseIP_bigIntToIPv6 v
    rw [show bigIntToIPv6 v = bigIntToIPv6 w from h, parseIP_bigIntToIPv6] at hparse
    exact (bytesOfValue_inj hw hv (Option.some.inj hparse)).symm

/-- A text that is not misprinted is read back. -/
theorem readBack {v : Nat} (hv : v < 2 ^ cidr.family.maxPrefix) (h : cidr.Misprints v = false) :
    ipFamily (cidr.formatValue v) = some cidr.family ∧ ipToBigInt (cidr.formatValue v) = some v := by
  unfold formatValue
  cases hfamily : cidr.family with
  | v4 =>
    rw [hfamily] at hv
    exact ⟨ipFamily_numberToIp v, ipToBigInt_numberToIp hv⟩
  | v6 =>
    rw [hfamily] at hv
    have hmapped : IsMapped v = false := by simpa [Misprints, hfamily] using h
    refine ⟨?_, ipToBigInt_bigIntToIPv6 hmapped hv⟩
    exact (ipFamily_bigIntToIPv6 v).trans (by rw [hmapped]; rfl)

theorem containsUsableAddress_formatValue {v : Nat} (hfirst : cidr.usableFirst ≤ v)
    (hlast : v ≤ cidr.usableLast) (h : cidr.Misprints v = false) :
    cidr.containsUsableAddress (cidr.formatValue v) = true := by
  obtain ⟨hfamily, hvalue⟩ := readBack (hlast.trans_lt cidr.usableLast_lt) h
  simp [containsUsableAddress, hfamily, hvalue, hfirst, hlast]

theorem addressAfter_formatValue {v : Nat} (hfirst : cidr.usableFirst ≤ v) (hlast : v ≤ cidr.usableLast)
    (h : cidr.Misprints v = false) : cidr.addressAfter (cidr.formatValue v)
      = if v = cidr.usableLast then none else some (cidr.formatValue (v + 1)) := by
  have hvalue := (readBack (hlast.trans_lt cidr.usableLast_lt) h).2
  rw [addressAfter, hvalue, containsUsableAddress_formatValue hfirst hlast h]
  by_cases heq : v = cidr.usableLast
  · simp [heq]
  · have hlt : ¬ cidr.usableLast ≤ v := by omega
    simp [heq, hlt]

end CIDR

end Webernetes.Net
