/-
Webernetes.Net.CidrAddresses — the addresses of a range, one after the other.

`addresses` lists them, and `addressAfter` leads from the text of one to the
text of the next. Both go over the same values; the text of a value is read
back as that value and its family unless it is an IPv6 address which is printed
as an IPv4 one. So a range is enumerated as it should be just when it has no
such address and its prefix was given in digits (`enumerates_iff`).
-/
import Webernetes.Net.Cidr
import Mathlib.Data.List.Nodup

namespace Webernetes.Net

open Js

/-! ## Bytes from a value -/

/-- Bytes are those of the value they stand for. -/
theorem lastBytes_valueOf {bytes : List Nat} (h : ∀ b ∈ bytes, b < 256) :
    lastBytes bytes.length (valueOf bytes) = bytes := by
  induction bytes using List.reverseRecOn with
  | nil => rfl
  | append_singleton bytes b ih =>
    have hb : b < 256 := h b (by simp)
    have hvalue : valueOf (bytes ++ [b]) = valueOf bytes * 256 + b := by
      rw [valueOf, List.foldl_concat, Nat.shiftLeft_eq]
      rfl
    have hdiv : (valueOf bytes * 256 + b) / 256 = valueOf bytes := by omega
    have hmod : (valueOf bytes * 256 + b) % 256 = b := by omega
    rw [List.length_append, List.length_singleton, lastBytes_succ, hvalue, hdiv, hmod,
      ih fun c hc => h c (List.mem_append_left _ hc)]

/-- Two texts of one address. -/
def SameAddress (a b : JsString) : Prop :=
  ∃ ip, parseIP (normalizeIPLiteral a) = some ip ∧ parseIP (normalizeIPLiteral b) = some ip

theorem SameAddress.ipFamily {a b : JsString} (h : SameAddress a b) : ipFamily a = ipFamily b := by
  obtain ⟨ip, ha, hb⟩ := h
  rw [Net.ipFamily, Net.ipFamily, ha, hb]

theorem SameAddress.ipToBigInt {a b : JsString} (h : SameAddress a b) :
    ipToBigInt a = ipToBigInt b := by
  obtain ⟨ip, ha, hb⟩ := h
  rw [Net.ipToBigInt, Net.ipToBigInt, ha, hb]

/-- The bytes of the address of a value. -/
def bytesIn : Family → Nat → List Nat
  | .v4, value => List.replicate 10 0 ++ [0xff, 0xff] ++ lastBytes 4 value
  | .v6, value => lastBytes 16 value

theorem parseIP_of_value {a : JsString} {family : Family} {value : Nat}
    (hfamily : ipFamily a = some family) (hvalue : ipToBigInt a = some value) :
    parseIP (normalizeIPLiteral a) = some (bytesIn family value) := by
  obtain ⟨ip, hip, hipvalue⟩ := Option.map_eq_some_iff.mp hvalue
  obtain ⟨hlength, hlt⟩ := bytes_parseIP hip
  rw [ipFamily, hip, Option.map_some, Option.some.injEq] at hfamily
  rw [hip]
  cases hipv4 : isIPv4 ip with
  | false =>
    simp only [hipv4, Bool.false_eq_true, if_false] at hfamily hipvalue
    have hback := lastBytes_valueOf hlt
    rw [hlength] at hback
    rw [← hfamily, ← hipvalue]
    exact congrArg some hback.symm
  | true =>
    simp only [hipv4, if_true] at hfamily hipvalue
    obtain ⟨x, y, z, w, rfl, -⟩ := eq_ipv4_of_isIPv4 hipv4
    have hback := @lastBytes_valueOf [x, y, z, w] fun d hd =>
      hlt d (List.mem_append_right [0, 0, 0, 0, 0, 0, 0, 0, 0, 0, 0xff, 0xff] hd)
    rw [← hfamily, ← hipvalue]
    exact congrArg (fun bytes => some (List.replicate 10 0 ++ [0xff, 0xff] ++ bytes)) hback.symm

namespace CIDR

/-- `CIDR.valid`. -/
def valid (other : JsString → Option Int) (cidr : JsString) : Bool :=
  match cidr.splitOn slash with
  | [range, prefixText] =>
    match ipFamily range, number other prefixText with
    | some family, some prefixBits => 0 ≤ prefixBits && prefixBits ≤ family.maxPrefix
    | _, _ => false
  | _ => false

/-- The constructor takes what is valid. -/
theorem new_of_valid {other : JsString → Option Int} {text : JsString} (h : valid other text = true) :
    ∃ range prefixText cidr prefixBits, text.splitOn slash = [range, prefixText]
      ∧ new other text = .ok cidr ∧ ipFamily range = some cidr.family
      ∧ number other prefixText = some prefixBits ∧ prefixBits ≤ cidr.family.maxPrefix := by
  unfold valid at h
  split at h
  · rename_i range prefixText hsplit
    split at h
    · rename_i family prefixBits hfamily hnumber
      simp only [Bool.and_eq_true, decide_eq_true_eq] at h
      obtain ⟨value, hvalue⟩ : ∃ value, ipToBigInt range = some value := by
        obtain ⟨ip, hip, -⟩ := Option.map_eq_some_iff.mp hfamily
        exact ⟨_, by rw [ipToBigInt, hip]; rfl⟩
      refine ⟨range, prefixText, of family value prefixBits.toNat (ipToBigInt_lt hfamily hvalue),
        prefixBits, hsplit, ?_, hfamily, hnumber, h.2⟩
      unfold new
      split
      · rename_i range' prefixText' hsplit'
        cases hsplit.symm.trans hsplit'
        split
        · rename_i prefixBits' family' value' hnumber' hfamily' hvalue'
          cases hnumber.symm.trans hnumber'
          cases hfamily.symm.trans hfamily'
          cases hvalue.symm.trans hvalue'
          rw [if_pos h]
        · rename_i hnot
          exact absurd hvalue (hnot _ _ _ hnumber hfamily)
      · rename_i hnot
        exact absurd hsplit (hnot range prefixText)
    · cases h
  · cases h

/-- `addresses()`. -/
def addresses (cidr : CIDR) : List JsString :=
  (List.range' cidr.usableFirst cidr.count).map cidr.formatValue

/-- From an address on with `addressAfter`, to the end. -/
inductive Walk (cidr : CIDR) : JsString → List JsString → Prop where
  | last {ip : JsString} (h : cidr.addressAfter ip = none) : Walk cidr ip [ip]
  | next {ip ip' : JsString} {rest : List JsString} (h : cidr.addressAfter ip = some ip')
      (hrest : Walk cidr ip' rest) : Walk cidr ip (ip :: rest)

/-- A range is enumerated as it should be. -/
structure Enumerates (cidr : CIDR) (prefixText : JsString) : Prop where
  plain : ∃ n, digitsValue prefixText = some n ∧ n ≤ cidr.family.maxPrefix
  walk : ∃ first, cidr.firstAddress = some first ∧ cidr.Walk first cidr.addresses
  increasing : cidr.addresses.Pairwise fun a b =>
    ∃ v w, ipToBigInt a = some v ∧ ipToBigInt b = some w ∧ v < w
  nodup : cidr.addresses.Nodup
  ends : cidr.addresses.getLast? = some (cidr.formatValue cidr.usableLast)
  family : ∀ a ∈ cidr.addresses, ipFamily a = some cidr.family
  usable : ∀ ip, cidr.containsUsableAddress ip = true ↔ ∃ a ∈ cidr.addresses, SameAddress ip a

variable {cidr : CIDR}

theorem mem_addresses {a : JsString} : a ∈ cidr.addresses ↔
    ∃ v, cidr.usableFirst ≤ v ∧ v ≤ cidr.usableLast ∧ a = cidr.formatValue v := by
  have hle := cidr.usableFirst_le_usableLast
  rw [addresses, List.mem_map]
  constructor
  · rintro ⟨v, hv, rfl⟩
    rw [List.mem_range'_1, count] at hv
    exact ⟨v, hv.1, by omega, rfl⟩
  · rintro ⟨v, hfirst, hlast, rfl⟩
    refine ⟨v, ?_, rfl⟩
    rw [List.mem_range'_1, count]
    omega

theorem nodup_addresses : cidr.addresses.Nodup := by
  refine List.Nodup.map_on ?_ List.nodup_range'
  intro v hv w hw heq
  have hle := cidr.usableFirst_le_usableLast
  have hlt := cidr.usableLast_lt
  rw [List.mem_range'_1, count] at hv hw
  exact formatValue_inj (by omega) (by omega) heq

theorem getLast?_addresses : cidr.addresses.getLast? = some (cidr.formatValue cidr.usableLast) := by
  have hle := cidr.usableFirst_le_usableLast
  have hcount : cidr.count = cidr.count - 1 + 1 := by
    rw [count]
    omega
  have hlast : cidr.usableFirst + (cidr.count - 1) = cidr.usableLast := by
    rw [count]
    omega
  rw [addresses, hcount, List.range'_concat, List.map_append, List.getLast?_append]
  simp [hlast]

/-- Where no address is misprinted the walk goes over the values. The induction
is on how many are left. -/
theorem walk_from (hprints : ∀ v, cidr.usableFirst ≤ v → v ≤ cidr.usableLast →
    cidr.Misprints v = false) : ∀ (left v : Nat), cidr.usableFirst ≤ v →
    v + left = cidr.usableLast →
    cidr.Walk (cidr.formatValue v) ((List.range' v (left + 1)).map cidr.formatValue)
  | 0, v, hfirst, hlast => by
      have hafter := addressAfter_formatValue hfirst (by omega) (hprints v hfirst (by omega))
      rw [if_pos (by omega)] at hafter
      exact .last hafter
  | left + 1, v, hfirst, hlast => by
      have hafter := addressAfter_formatValue hfirst (by omega) (hprints v hfirst (by omega))
      rw [if_neg (by omega)] at hafter
      exact .next hafter (walk_from hprints left (v + 1) (by omega) (by omega))

theorem enumerates_of_prints {prefixText : JsString} {n : Nat}
    (hdigits : digitsValue prefixText = some n) (hn : n ≤ cidr.family.maxPrefix)
    (hprints : ∀ v, cidr.usableFirst ≤ v → v ≤ cidr.usableLast → cidr.Misprints v = false) :
    cidr.Enumerates prefixText := by
  have hle := cidr.usableFirst_le_usableLast
  have hlt := cidr.usableLast_lt
  have hread : ∀ v, cidr.usableFirst ≤ v → v ≤ cidr.usableLast →
      ipFamily (cidr.formatValue v) = some cidr.family ∧ ipToBigInt (cidr.formatValue v) = some v :=
    fun v hfirst hlast => readBack (by omega) (hprints v hfirst hlast)
  refine ⟨⟨n, hdigits, hn⟩, ⟨_, if_pos hle, ?_⟩, ?_, nodup_addresses, getLast?_addresses, ?_, ?_⟩
  · have hwalk := walk_from hprints (cidr.usableLast - cidr.usableFirst) _ (Nat.le_refl _) (by omega)
    rwa [show cidr.usableLast - cidr.usableFirst + 1 = cidr.count by rw [count]; omega] at hwalk
  · rw [addresses, List.pairwise_map]
    refine List.Pairwise.imp_of_mem ?_ List.pairwise_lt_range'
    intro v w hv hw hvw
    rw [List.mem_range'_1, count] at hv hw
    exact ⟨v, w, (hread v hv.1 (by omega)).2, (hread w hw.1 (by omega)).2, hvw⟩
  · intro a ha
    obtain ⟨v, hfirst, hlast, rfl⟩ := mem_addresses.mp ha
    exact (hread v hfirst hlast).1
  · intro ip
    constructor
    · intro h
      simp only [containsUsableAddress, Bool.and_eq_true, decide_eq_true_eq] at h
      obtain ⟨hfamily, hvalue⟩ := h
      obtain ⟨v, hv, hin⟩ := (Option.any_eq_true _ _).mp hvalue
      simp only [Bool.and_eq_true, decide_eq_true_eq] at hin
      have hread' := hread v hin.1 hin.2
      exact ⟨_, mem_addresses.mpr ⟨v, hin.1, hin.2, rfl⟩,
        ⟨_, parseIP_of_value hfamily hv, parseIP_of_value hread'.1 hread'.2⟩⟩
    · rintro ⟨a, ha, hsame⟩
      obtain ⟨v, hfirst, hlast, rfl⟩ := mem_addresses.mp ha
      obtain ⟨hfamily, hvalue⟩ := hread v hfirst hlast
      simp [containsUsableAddress, hsame.ipFamily, hsame.ipToBigInt, hfamily, hvalue, hfirst, hlast]

/-- A misprinted address is of the other family. -/
theorem not_enumerates_of_misprints {prefixText : JsString} {v : Nat}
    (hfirst : cidr.usableFirst ≤ v) (hlast : v ≤ cidr.usableLast) (h : cidr.Misprints v = true) :
    ¬ cidr.Enumerates prefixText := by
  intro henum
  have hfamily := henum.family _ (mem_addresses.mpr ⟨v, hfirst, hlast, rfl⟩)
  simp only [Misprints, Bool.and_eq_true, decide_eq_true_eq] at h
  obtain ⟨hv6, hmapped⟩ := h
  have hother := ipFamily_bigIntToIPv6 v
  rw [hmapped] at hother
  rw [formatValue, hv6] at hfamily
  cases hother.symm.trans hfamily

/-- Which accepted ranges are enumerated as they should be. -/
theorem enumerates_iff (other : JsString → Option Int) (text : JsString)
    (h : valid other text = true) :
    ∃ range prefixText cidr, text.splitOn slash = [range, prefixText] ∧ new other text = .ok cidr ∧
      (cidr.Enumerates prefixText ↔ (digitsValue prefixText).isSome = true ∧
        ∀ v, cidr.usableFirst ≤ v → v ≤ cidr.usableLast → cidr.Misprints v = false) := by
  obtain ⟨range, prefixText, cidr, prefixBits, hsplit, hnew, -, hnumber, hle⟩ := new_of_valid h
  refine ⟨range, prefixText, cidr, hsplit, hnew, ?_⟩
  constructor
  · intro henum
    obtain ⟨n, hn, -⟩ := henum.plain
    refine ⟨Option.isSome_of_eq_some hn, fun v hfirst hlast => ?_⟩
    cases hmis : cidr.Misprints v with
    | false => rfl
    | true => exact absurd henum (not_enumerates_of_misprints hfirst hlast hmis)
  · rintro ⟨hdigits, hprints⟩
    obtain ⟨n, hn⟩ := Option.isSome_iff_exists.mp hdigits
    refine enumerates_of_prints hn ?_ hprints
    rw [number, hn] at hnumber
    cases hnumber
    exact Int.ofNat_le.mp hle

/-- A range of four addresses, two of them usable. -/
theorem enumerates_iff_small : valid (fun _ => none) (js "10.0.0.0/30") = true ∧
    ∃ range prefixText cidr, (js "10.0.0.0/30").splitOn slash = [range, prefixText] ∧
      new (fun _ => none) (js "10.0.0.0/30") = .ok cidr ∧
      (cidr.Enumerates prefixText ↔ (digitsValue prefixText).isSome = true ∧
        ∀ v, cidr.usableFirst ≤ v → v ≤ cidr.usableLast → cidr.Misprints v = false) := by
  have hvalid : valid (fun _ => none) (js "10.0.0.0/30") = true := by decide
  exact ⟨hvalid, enumerates_iff _ _ hvalid⟩

/-- The range of all IPv6 addresses has those that are printed as IPv4 ones. -/
theorem all_not_enumerates : ¬ ∀ (other : JsString → Option Int) (text range prefixText : JsString)
    (cidr : CIDR), valid other text = true → text.splitOn slash = [range, prefixText] →
    new other text = .ok cidr → cidr.Enumerates prefixText := by
  intro h
  have hvalid : valid (fun _ => none) (js "::/0") = true := by decide
  obtain ⟨range, prefixText, cidr, prefixBits, hsplit, hnew, -, -, -⟩ := new_of_valid hvalid
  have hbounds : (new (fun _ => none) (js "::/0")).toOption.all (fun c =>
      c.usableFirst ≤ 0xffff00000000 && 0xffff00000000 ≤ c.usableLast
        && c.Misprints 0xffff00000000) = true := by decide
  rw [hnew] at hbounds
  simp only [Except.toOption, Option.all_some, Bool.and_eq_true, decide_eq_true_eq] at hbounds
  exact not_enumerates_of_misprints hbounds.1.1 hbounds.1.2 hbounds.2
    (h _ _ _ _ _ hvalid hsplit hnew)

end CIDR

end Webernetes.Net
