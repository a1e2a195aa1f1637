/-
Webernetes.Net.IpText — an address is read back as it was printed
(`parseIP_formatIP`), and the printed form of a text that is accepted is
canonical (`formatIP_canonical`).

A group is printed without a colon and without a dot, so each of its texts
ends where the number read from it ends. The loop over the groups is followed
along the groups that were printed: first those up to the ellipsis
(`ipv6Groups_before`), then those to the end (`ipv6Groups_last`).
-/
import Webernetes.Net.Ip

namespace Webernetes.Net

open Js

/-! ## Numbers in decimal -/

theorem isDecimalDigit_digitUnit {d : Nat} (h : d < 10) : isDecimalDigit (digitUnit d) = true := by
  simp only [isDecimalDigit, digitUnit_val h, decide_eq_true_eq]
  omega

theorem all_isDecimalDigit_decimal (n : Nat) : (decimal n).all isDecimalDigit = true := by
  induction n using Nat.strongRecOn with
  | ind n ih =>
    by_cases hn : n < 10
    · simp [decimal_of_lt hn, isDecimalDigit_digitUnit hn]
    · rw [decimal_of_le (by omega), List.all_append, ih (n / 10) (by omega)]
      simp [isDecimalDigit_digitUnit (Nat.mod_lt n (by decide : 0 < 10))]

theorem foldl_decimal (n : Nat) :
    (decimal n).foldl (fun n (u : CodeUnit) => n * 10 + (u.val - 48)) 0 = n := by
  induction n using Nat.strongRecOn with
  | ind n ih =>
    by_cases hn : n < 10
    · simp [decimal_of_lt hn, digitUnit_val hn]
    · rw [decimal_of_le (by omega), List.foldl_concat, ih (n / 10) (by omega),
        digitUnit_val (Nat.mod_lt n (by decide))]
      omega

@[simp] theorem digitsValue_decimal (n : Nat) : digitsValue (decimal n) = some n := by
  have hne : (decimal n).isEmpty = false := by simpa using decimal_ne_nil n
  rw [digitsValue, hne, all_isDecimalDigit_decimal, foldl_decimal]
  rfl

@[simp] theorem number_decimal (other : JsString → Option Int) (n : Nat) :
    number other (decimal n) = some (n : Int) := by
  rw [number, digitsValue_decimal]

theorem not_mem_decimal {u : CodeUnit} (h : isDecimalDigit u = false) (n : Nat) : u ∉ decimal n := by
  intro hmem
  rw [List.all_eq_true.mp (all_isDecimalDigit_decimal n) u hmem] at h
  cases h

theorem colon_not_mem_decimal (n : Nat) : colon ∉ decimal n := not_mem_decimal (by decide) n

theorem dot_not_mem_decimal (n : Nat) : dot ∉ decimal n := not_mem_decimal (by decide) n

/-! ## Numbers in hexadecimal -/

theorem hexDigit_digitChar {d : Nat} (h : d < 16) : hexDigit (unitOf d.digitChar) = some d := by
  have hall : ∀ d < 16, hexDigit (unitOf d.digitChar) = some d := by decide
  exact hall d h

/-- The digits of a number are those of a sixteenth and one more. -/
theorem hex_of_lt {n : Nat} (h : n < 16) : hex n = [unitOf n.digitChar] := by
  rw [hex, Nat.toDigits_of_lt_base h]
  rfl

theorem hex_of_le {n : Nat} (h : 16 ≤ n) : hex n = hex (n / 16) ++ [unitOf (n % 16).digitChar] := by
  rw [hex, Nat.toDigits_of_base_le (by decide) h, List.map_append, hex]
  rfl

theorem hex_ne_nil (n : Nat) : hex n ≠ [] := by
  by_cases h : n < 16
  · simp [hex_of_lt h]
  · simp [hex_of_le (by omega : 16 ≤ n)]

theorem isSome_hexDigit_of_mem {n : Nat} {u : CodeUnit} (h : u ∈ hex n) : (hexDigit u).isSome = true := by
  induction n using Nat.strongRecOn with
  | ind n ih =>
    by_cases hn : n < 16
    · rw [hex_of_lt hn, List.mem_singleton] at h
      rw [h, hexDigit_digitChar hn]
      rfl
    · rw [hex_of_le (by omega), List.mem_append, List.mem_singleton] at h
      rcases h with h | h
      · exact ih (n / 16) (by omega) h
      · rw [h, hexDigit_digitChar (Nat.mod_lt n (by decide))]
        rfl

theorem colon_not_mem_hex (n : Nat) : colon ∉ hex n := by
  intro h
  exact absurd (isSome_hexDigit_of_mem h) (by decide)

theorem dot_not_mem_hex (n : Nat) : dot ∉ hex n := by
  intro h
  exact absurd (isSome_hexDigit_of_mem h) (by decide)

/-- A unit that ends a number: what follows a group. -/
def Ends (rest : JsString) : Prop := ∀ u ∈ rest.head?, hexDigit u = none

theorem xtoi_of_ends {rest : JsString} (h : Ends rest) (n c : Nat) :
    xtoi n c rest = (n, c, decide (0 < c)) := by
  cases rest with
  | nil => rfl
  | cons u rest => rw [xtoi, h u rfl]

/-- By induction on the number, whose last digit is read last: what is read
before `rest` is the number. -/
theorem xtoi_append (n : Nat) : ∀ (n0 c : Nat) (rest : JsString),
    n0 * 16 ^ (hex n).length + n < big →
    xtoi n0 c (hex n ++ rest) = xtoi (n0 * 16 ^ (hex n).length + n) (c + (hex n).length) rest := by
  induction n using Nat.strongRecOn with
  | ind n ih =>
    intro n0 c rest hbig
    by_cases hn : n < 16
    · rw [hex_of_lt hn] at hbig ⊢
      simp only [List.length_singleton, Nat.pow_one] at hbig ⊢
      rw [List.singleton_append, xtoi, hexDigit_digitChar hn]
      exact if_neg (by omega)
    · rw [hex_of_le (by omega)] at hbig ⊢
      simp only [List.length_append, List.length_singleton, Nat.pow_succ] at hbig ⊢
      have hsum : (n0 * 16 ^ (hex (n / 16)).length + n / 16) * 16 + n % 16
          = n0 * (16 ^ (hex (n / 16)).length * 16) + n := by
        rw [Nat.add_mul, Nat.mul_assoc]
        omega
      rw [List.append_assoc, ih (n / 16) (by omega) n0 c _ (by omega), List.singleton_append, xtoi,
        hexDigit_digitChar (Nat.mod_lt n (by decide))]
      dsimp only
      rw [if_neg (by omega), hsum, Nat.add_assoc]

theorem xtoi_hex {n : Nat} (h : n ≤ 0xffff) {rest : JsString} (hrest : Ends rest) :
    xtoi 0 0 (hex n ++ rest) = (n, (hex n).length, true) := by
  rw [xtoi_append n 0 0 rest (by simp [big]; omega), xtoi_of_ends hrest]
  simp [List.length_pos_iff.mpr (hex_ne_nil n)]

/-! ## Groups -/

/-- The two bytes of a group. -/
def bytesOf (group : Nat) : List Nat := [(group >>> 8) &&& 0xff, group &&& 0xff]

theorem shiftLeft_or {a b : Nat} (hb : b < 256) : (a <<< 8) ||| b = 256 * a + b := by
  rw [← Nat.shiftLeft_add_eq_or_of_lt hb, Nat.shiftLeft_eq, Nat.mul_comm]

theorem and_0xff (n : Nat) : n &&& 0xff = n % 256 := Nat.and_two_pow_sub_one_eq_mod n 8

theorem bytesOf_shiftLeft_or {a b : Nat} (ha : a < 256) (hb : b < 256) :
    bytesOf ((a <<< 8) ||| b) = [a, b] := by
  rw [bytesOf, shiftLeft_or hb, and_0xff, and_0xff, Nat.shiftRight_eq_div_pow]
  have hhigh : (256 * a + b) / 2 ^ 8 % 256 = a := by omega
  have hlow : (256 * a + b) % 256 = b := by omega
  rw [hhigh, hlow]

/-- By induction on the bytes, two at a time. -/
theorem flatMap_bytesOf_groupsOf : ∀ {ip : List Nat}, (∀ b ∈ ip, b < 256) → ip.length % 2 = 0 →
    (groupsOf ip).flatMap bytesOf = ip
  | [], _, _ => rfl
  | [_], _, heven => by simp at heven
  | a :: b :: ip, hbytes, heven => by
    rw [groupsOf, List.flatMap_cons, bytesOf_shiftLeft_or (hbytes a (by simp)) (hbytes b (by simp)),
      flatMap_bytesOf_groupsOf (fun c hc => hbytes c (by simp [hc])) (by simp only [List.length_cons] at heven; omega)]
    rfl

theorem le_of_mem_groupsOf : ∀ {ip : List Nat}, (∀ b ∈ ip, b < 256) → ∀ g ∈ groupsOf ip, g ≤ 0xffff
  | [], _, _, hg => by cases hg
  | [_], _, _, hg => by cases hg
  | a :: b :: ip, hbytes, g, hg => by
    rw [groupsOf, List.mem_cons] at hg
    rcases hg with rfl | hg
    · have ha := hbytes a (by simp)
      have hb := hbytes b (by simp)
      rw [shiftLeft_or hb]
      omega
    · exact le_of_mem_groupsOf (fun c hc => hbytes c (by simp [hc])) g hg

theorem length_groupsOf : ∀ {ip : List Nat}, ip.length % 2 = 0 → 2 * (groupsOf ip).length = ip.length
  | [], _ => rfl
  | [_], heven => by simp at heven
  | a :: b :: ip, heven => by
    have ih := @length_groupsOf ip (by simp only [List.length_cons] at heven; omega)
    simp only [groupsOf, List.length_cons]
    omega

theorem length_flatMap_bytesOf (groups : List Nat) : (groups.flatMap bytesOf).length = 2 * groups.length := by
  induction groups with
  | nil => rfl
  | cons g groups ih =>
    rw [List.flatMap_cons, List.length_append, ih, bytesOf]
    simp
    omega

theorem formatGroups_singleton (g : Nat) : formatGroups [g] = hex g := by
  simp [formatGroups, join]

theorem formatGroups_cons (g : Nat) {groups : List Nat} (h : groups ≠ []) :
    formatGroups (g :: groups) = hex g ++ colon :: formatGroups groups := by
  cases groups with
  | nil => exact absurd rfl h
  | cons g' groups => simp [formatGroups, join]

/-- A text of groups starts with a digit. -/
theorem formatGroups_head (g : Nat) (groups : List Nat) :
    ∃ u rest, formatGroups (g :: groups) = u :: rest ∧ u ≠ colon := by
  obtain ⟨u, rest, hhex⟩ := List.exists_cons_of_ne_nil (hex_ne_nil g)
  have hu : u ≠ colon := by
    rintro rfl
    exact colon_not_mem_hex g (by rw [hhex]; simp)
  by_cases hgroups : groups = []
  · exact ⟨u, rest, by rw [hgroups, formatGroups_singleton, hhex], hu⟩
  · exact ⟨u, rest ++ colon :: formatGroups groups, by
      rw [formatGroups_cons g hgroups, hhex]
      rfl, hu⟩

/-! ## The loop over the groups -/

/-- What follows a group decides how the loop goes on. -/
def afterGroup (left : Nat) (ip : List Nat) (ellipsis : Option Nat) :
    JsString → Option (List Nat × Option Nat × JsString)
  | [] => some (ip, ellipsis, [])
  | [_] => none
  | separator :: next :: rest =>
    if separator ≠ colon then none
    else if next = colon then
      if ellipsis.isSome then none
      else if rest.isEmpty then some (ip, some ip.length, [])
      else ipv6Groups left ip (some ip.length) rest
    else ipv6Groups left ip ellipsis (next :: rest)

theorem ipv6Groups_hex {g : Nat} (hg : g ≤ 0xffff) {rest : JsString} (hrest : Ends rest)
    (hdot : rest.head? ≠ some dot) (left : Nat) (ip : List Nat) (ellipsis : Option Nat) :
    ipv6Groups (left + 1) ip ellipsis (hex g ++ rest)
      = afterGroup left (ip ++ bytesOf g) ellipsis rest := by
  rw [ipv6Groups, xtoi_hex hg hrest]
  dsimp only
  rw [if_neg (by omega), List.getElem?_append_right (Nat.le_refl _), Nat.sub_self,
    ← List.head?_eq_getElem?, if_neg hdot, List.drop_left' rfl]
  rfl

theorem ends_colon (rest : JsString) : Ends (colon :: rest) := by
  intro u hu
  cases hu
  decide

/-- Groups to the end of the text. -/
theorem ipv6Groups_last (groups : List Nat) : ∀ (left : Nat) (ip : List Nat) (ellipsis : Option Nat),
    groups ≠ [] → (∀ g ∈ groups, g ≤ 0xffff) → groups.length ≤ left →
    ipv6Groups left ip ellipsis (formatGroups groups)
      = some (ip ++ groups.flatMap bytesOf, ellipsis, []) := by
  induction groups with
  | nil => intro _ _ _ h; exact absurd rfl h
  | cons g groups ih =>
    intro left ip ellipsis _ hsmall hleft
    obtain ⟨left, rfl⟩ : ∃ k, left = k + 1 := Nat.exists_eq_succ_of_ne_zero (by simp at hleft; omega)
    have hg : g ≤ 0xffff := hsmall g (by simp)
    cases groups with
    | nil =>
      have hends : Ends [] := fun _ h => by cases h
      have hread := ipv6Groups_hex hg hends (by simp) left ip ellipsis
      rw [List.append_nil] at hread
      rw [formatGroups_singleton, hread, afterGroup]
      simp
    | cons g' groups =>
      obtain ⟨u, rest, hformat, hu⟩ := formatGroups_head g' groups
      rw [formatGroups_cons g (by simp), ipv6Groups_hex hg (ends_colon _) (by simp; decide), hformat, afterGroup,
        if_neg (by simp), if_neg hu, ← hformat, ih left _ _ (by simp)
        (fun k hk => hsmall k (List.mem_cons_of_mem _ hk)) (by simpa using hleft)]
      simp

/-- Groups up to the ellipsis, and what the rest gives. -/
theorem ipv6Groups_before (groups : List Nat) : ∀ (left : Nat) (ip : List Nat) (rest : JsString),
    groups ≠ [] → (∀ g ∈ groups, g ≤ 0xffff) → groups.length ≤ left →
    ipv6Groups left ip none (formatGroups groups ++ colon :: colon :: rest) =
      let ip := ip ++ groups.flatMap bytesOf
      if rest.isEmpty then some (ip, some ip.length, [])
      else ipv6Groups (left - groups.length) ip (some ip.length) rest := by
  induction groups with
  | nil => intro _ _ _ h; exact absurd rfl h
  | cons g groups ih =>
    intro left ip rest _ hsmall hleft
    obtain ⟨left, rfl⟩ : ∃ k, left = k + 1 := Nat.exists_eq_succ_of_ne_zero (by simp at hleft; omega)
    have hg : g ≤ 0xffff := hsmall g (by simp)
    cases groups with
    | nil =>
      rw [formatGroups_singleton, ipv6Groups_hex hg (ends_colon _) (by simp; decide), afterGroup]
      simp
    | cons g' groups =>
      obtain ⟨u, tail, hformat, hu⟩ := formatGroups_head g' groups
      have hsplit : formatGroups (g :: g' :: groups) ++ colon :: colon :: rest
          = hex g ++ colon :: u :: (tail ++ colon :: colon :: rest) := by
        rw [formatGroups_cons g (by simp), hformat]
        simp
      rw [hsplit, ipv6Groups_hex hg (ends_colon _) (by simp; decide), afterGroup]
      have hback : u :: (tail ++ colon :: colon :: rest)
          = formatGroups (g' :: groups) ++ colon :: colon :: rest := by
        rw [hformat]
        rfl
      rw [if_neg (by simp), if_neg hu, hback, ih left _ rest (by simp)
        (fun k hk => hsmall k (List.mem_cons_of_mem _ hk)) (by simpa using hleft)]
      simp [Nat.succ_sub_succ]

/-! ## The ellipsis -/

theorem take_append_takeWhile_drop (groups : List Nat) (i : Nat) :
    groups = groups.take i ++ (List.replicate ((groups.drop i).takeWhile (· = 0)).length 0
      ++ groups.drop (i + ((groups.drop i).takeWhile (· = 0)).length)) := by
  have hzeros : List.replicate ((groups.drop i).takeWhile (· = 0)).length 0
      = (groups.drop i).takeWhile (· = 0) := by
    refine (List.eq_replicate_of_mem fun g hg => ?_).symm
    simpa using List.all_eq_true.mp List.all_takeWhile g hg
  have hrest : groups.drop (i + ((groups.drop i).takeWhile (· = 0)).length)
      = (groups.drop i).dropWhile (· = 0) := by
    have hdrop : (((groups.drop i).takeWhile (· = 0)) ++ (groups.drop i).dropWhile (· = 0)).drop
        ((groups.drop i).takeWhile (· = 0)).length = (groups.drop i).dropWhile (· = 0) := List.drop_left
    rwa [List.takeWhile_append_dropWhile, List.drop_drop] at hdrop
  rw [hzeros, hrest, List.takeWhile_append_dropWhile, List.take_append_drop]

/-- The run that is left out is one of zeros. By induction on the rounds. -/
theorem bestRun_zeros (groups : List Nat) (fuel : Nat) : ∀ (i : Nat) (best : Option (Nat × Nat)) {start length : Nat},
    bestRun groups fuel i best = some (start, length) → best = some (start, length)
      ∨ 2 ≤ length ∧ groups = groups.take start ++ (List.replicate length 0 ++ groups.drop (start + length)) := by
  induction fuel with
  | zero => exact fun _ _ _ _ h => .inl h
  | succ fuel ih =>
    intro i best start length h
    rw [bestRun] at h
    split at h
    · exact .inl h
    · split at h
      · exact ih _ _ h
      · dsimp only at h
        split at h
        · rename_i hlonger
          rcases ih _ _ h with hbest | hrun
          · cases hbest
            exact .inr ⟨hlonger.2, take_append_takeWhile_drop groups i⟩
          · exact .inr hrun
        · exact ih _ _ h

theorem flatMap_bytesOf_replicate (n : Nat) :
    (List.replicate n 0).flatMap bytesOf = List.replicate (2 * n) 0 := by
  induction n with
  | zero => rfl
  | succ n ih =>
    rw [List.replicate_succ, List.flatMap_cons, ih]
    rfl

/-! ## The round trip -/

theorem isPrefixOf_of_head {u : CodeUnit} (hu : u ≠ colon) (rest : JsString) :
    [colon, colon].isPrefixOf (u :: rest) = false := by
  simp [List.isPrefixOf, Ne.symm hu]

/-- The bytes of all groups but a run of zeros, with the place of the run. -/
theorem expandEllipsis_run {before after : List Nat} {length : Nat} (hlength : 2 ≤ length)
    (hsum : before.length + (length + after.length) = 8) :
    expandEllipsis (before.flatMap bytesOf ++ after.flatMap bytesOf) (some (before.flatMap bytesOf).length)
      = some ((before ++ (List.replicate length 0 ++ after)).flatMap bytesOf) := by
  have hshort : (before.flatMap bytesOf ++ after.flatMap bytesOf).length < ipv6Len := by
    rw [List.length_append, length_flatMap_bytesOf, length_flatMap_bytesOf, ipv6Len]
    omega
  have hzeros : ipv6Len - (before.flatMap bytesOf ++ after.flatMap bytesOf).length = 2 * length := by
    rw [List.length_append, length_flatMap_bytesOf, length_flatMap_bytesOf, ipv6Len]
    omega
  rw [expandEllipsis, if_pos hshort, hzeros, List.take_left, List.drop_left, List.flatMap_append, List.flatMap_append,
    flatMap_bytesOf_replicate, List.append_assoc]

/-- An ellipsis stands for the zeros that were left out. -/
theorem parseIPv6Sloppy_run {before after : List Nat} {length : Nat} (hlength : 2 ≤ length)
    (hsum : before.length + (length + after.length) = 8) (hbefore : ∀ g ∈ before, g ≤ 0xffff)
    (hafter : ∀ g ∈ after, g ≤ 0xffff) :
    parseIPv6Sloppy (formatGroups before ++ [colon, colon] ++ formatGroups after)
      = some ((before ++ (List.replicate length 0 ++ after)).flatMap bytesOf) := by
  have hexpand := expandEllipsis_run hlength hsum
  have hempty : (formatGroups after).isEmpty = after.isEmpty := by
    cases after with
    | nil => rfl
    | cons g after =>
      obtain ⟨u, rest, hformat, -⟩ := formatGroups_head g after
      rw [hformat]
      rfl
  cases before with
  | nil =>
    rw [parseIPv6Sloppy, show formatGroups [] ++ [colon, colon] ++ formatGroups after
      = colon :: colon :: formatGroups after from rfl, if_pos (by simp [List.isPrefixOf])]
    simp only [List.drop_succ_cons, List.drop_zero, hempty]
    cases after with
    | nil =>
      obtain rfl : length = 8 := by simpa using hsum
      rfl
    | cons g after =>
      rw [if_neg (by simp), ipv6Groups_last _ 8 [] (some 0) (by simp) hafter (by simp at hsum ⊢; omega)]
      exact hexpand
  | cons g before =>
    obtain ⟨u, rest, hformat, hu⟩ := formatGroups_head g before
    rw [parseIPv6Sloppy, if_neg (by rw [hformat]; simp [isPrefixOf_of_head hu]), List.append_assoc]
    have hread := ipv6Groups_before (g :: before) 8 [] (formatGroups after) (by simp) hbefore
      (by simp at hsum ⊢; omega)
    rw [show [colon, colon] ++ formatGroups after = colon :: colon :: formatGroups after from rfl, hread]
    simp only [List.nil_append, hempty]
    cases after with
    | nil =>
      rw [List.flatMap_nil, List.append_nil] at hexpand
      exact hexpand
    | cons g' after =>
      rw [if_neg (by simp), ipv6Groups_last _ _ _ _ (by simp) hafter (by simp at hsum ⊢; omega)]
      exact hexpand

theorem parseIPv6Sloppy_groups {groups : List Nat} (hlength : groups.length = 8)
    (hsmall : ∀ g ∈ groups, g ≤ 0xffff) :
    parseIPv6Sloppy (formatGroups groups) = some (groups.flatMap bytesOf) := by
  cases groups with
  | nil => cases hlength
  | cons g groups =>
    obtain ⟨u, rest, hformat, hu⟩ := formatGroups_head g groups
    rw [parseIPv6Sloppy, if_neg (by rw [hformat]; simp [isPrefixOf_of_head hu]),
      ipv6Groups_last _ 8 [] none (by simp) hsmall (by omega)]
    have hlong : ¬ ([] ++ (g :: groups).flatMap bytesOf).length < ipv6Len := by
      rw [List.nil_append, length_flatMap_bytesOf, hlength]
      decide
    rw [finishIPv6, expandEllipsis]
    exact if_neg hlong

/-- A group is followed by a colon, in whatever the text goes on with. -/
theorem formatGroups_append_colon (g : Nat) (groups : List Nat) (tail : JsString) :
    ∃ rest, formatGroups (g :: groups) ++ colon :: tail = hex g ++ colon :: rest := by
  by_cases hgroups : groups = []
  · exact ⟨tail, by rw [hgroups, formatGroups_singleton]⟩
  · exact ⟨formatGroups groups ++ colon :: tail, by rw [formatGroups_cons g hgroups, List.append_assoc]; rfl⟩

theorem find_of_split {first : JsString} {u : CodeUnit} {rest : JsString}
    (hfirst : ∀ v ∈ first, v ≠ dot ∧ v ≠ colon) (hu : u = dot ∨ u = colon) :
    (first ++ u :: rest).find? (fun u => u = dot ∨ u = colon) = some u := by
  rw [List.find?_append, List.find?_eq_none.mpr fun v hv => by simp [hfirst v hv],
    List.find?_cons_of_pos (by simpa using hu)]
  rfl

theorem parseIP_of_colon {first rest : JsString} (hfirst : ∀ v ∈ first, v ≠ dot ∧ v ≠ colon) :
    parseIP (first ++ colon :: rest) = parseIPv6Sloppy (first ++ colon :: rest) := by
  rw [parseIP, find_of_split hfirst (.inr rfl)]
  exact if_neg (by decide)

theorem ne_dot_colon_of_mem_hex {n : Nat} {u : CodeUnit} (h : u ∈ hex n) : u ≠ dot ∧ u ≠ colon :=
  ⟨fun heq => dot_not_mem_hex n (heq ▸ h), fun heq => colon_not_mem_hex n (heq ▸ h)⟩

theorem ne_dot_colon_of_mem_decimal {n : Nat} {u : CodeUnit} (h : u ∈ decimal n) : u ≠ dot ∧ u ≠ colon :=
  ⟨fun heq => dot_not_mem_decimal n (heq ▸ h), fun heq => colon_not_mem_decimal n (heq ▸ h)⟩

theorem parseOctet_decimal {n : Nat} (h : n < 256) : parseOctet (decimal n) = some n := by
  simp [parseOctet, Nat.not_lt.mpr (Nat.le_of_lt_succ h)]

/-- Four bytes with dots between them. -/
theorem parseIP_octets {a b c d : Nat} (ha : a < 256) (hb : b < 256) (hc : c < 256) (hd : d < 256) :
    parseIP (join [dot] ([a, b, c, d].map decimal)) = some (ipv4 a b c d) := by
  have htext : join [dot] ([a, b, c, d].map decimal)
      = decimal a ++ dot :: (decimal b ++ dot :: (decimal c ++ dot :: decimal d)) := by
    simp [join]
  rw [parseIP, htext, find_of_split (fun v hv => ne_dot_colon_of_mem_decimal hv) (.inl rfl)]
  dsimp only
  rw [if_pos rfl, parseIPv4Sloppy,
    List.splitOn_append_cons_self_of_not_mem (dot_not_mem_decimal a),
    List.splitOn_append_cons_self_of_not_mem (dot_not_mem_decimal b),
    List.splitOn_append_cons_self_of_not_mem (dot_not_mem_decimal c),
    List.splitOn_eq_singleton (dot_not_mem_decimal d)]
  simp [parseOctet_decimal ha, parseOctet_decimal hb, parseOctet_decimal hc, parseOctet_decimal hd]

theorem eq_ipv4_of_isIPv4 {ip : List Nat} (h : isIPv4 ip = true) :
    ∃ a b c d, ip = ipv4 a b c d ∧ ip.drop 12 = [a, b, c, d] := by
  simp only [isIPv4, Bool.and_eq_true, decide_eq_true_eq] at h
  obtain ⟨⟨⟨hlength, hzeros⟩, hten⟩, heleven⟩ := h
  match ip, hlength with
  | [a0, a1, a2, a3, a4, a5, a6, a7, a8, a9, a10, a11, a, b, c, d], _ =>
    simp at hzeros hten heleven
    obtain ⟨rfl, rfl, rfl, rfl, rfl, rfl, rfl, rfl, rfl, rfl⟩ := hzeros
    exact ⟨a, b, c, d, by rw [hten, heleven]; rfl, rfl⟩

/-- **An address is read back as it was printed.** -/
theorem parseIP_formatIP {ip : List Nat} (hlength : ip.length = 16) (hbytes : ∀ b ∈ ip, b < 256) :
    parseIP (formatIP ip) = some ip := by
  rw [formatIP]
  split
  · rename_i hipv4
    obtain ⟨a, b, c, d, rfl, hdrop⟩ := eq_ipv4_of_isIPv4 hipv4
    rw [hdrop]
    exact parseIP_octets (hbytes a (by simp [ipv4])) (hbytes b (by simp [ipv4]))
      (hbytes c (by simp [ipv4])) (hbytes d (by simp [ipv4]))
  · have hgroups : (groupsOf ip).length = 8 := by
      have hdouble := @length_groupsOf ip (by omega)
      omega
    have hsmall := le_of_mem_groupsOf hbytes
    have hback := flatMap_bytesOf_groupsOf hbytes (by omega)
    dsimp only
    split
    · obtain ⟨g, g', groups, hcons⟩ : ∃ g g' groups, groupsOf ip = g :: g' :: groups := by
        match groupsOf ip, hgroups with
        | g :: g' :: groups, _ => exact ⟨g, g', groups, rfl⟩
      rw [hcons, formatGroups_cons g (by simp), parseIP_of_colon (fun v hv => ne_dot_colon_of_mem_hex hv),
        ← formatGroups_cons g (by simp), ← hcons, parseIPv6Sloppy_groups hgroups hsmall, hback]
    · rename_i start length hrun
      rcases bestRun_zeros _ _ _ _ hrun with hnone | ⟨htwo, hsplit⟩
      · cases hnone
      · have hbefore : ∀ g ∈ (groupsOf ip).take start, g ≤ 0xffff := fun g hg => hsmall g (List.mem_of_mem_take hg)
        have hafter : ∀ g ∈ (groupsOf ip).drop (start + length), g ≤ 0xffff :=
          fun g hg => hsmall g (List.mem_of_mem_drop hg)
        have hsum : ((groupsOf ip).take start).length
            + (length + ((groupsOf ip).drop (start + length)).length) = 8 := by
          have hcount := congrArg List.length hsplit
          rw [List.length_append, List.length_append, List.length_replicate] at hcount
          omega
        have hparse := parseIPv6Sloppy_run htwo hsum hbefore hafter
        rw [← hsplit, hback] at hparse
        rw [← hparse]
        generalize (groupsOf ip).take start = before at *
        cases before with
        | nil => exact @parseIP_of_colon [] _ (fun v hv => by cases hv)
        | cons g before =>
          obtain ⟨rest, htext⟩ := formatGroups_append_colon g before
            (colon :: formatGroups ((groupsOf ip).drop (start + length)))
          rw [List.append_assoc, show [colon, colon] ++ formatGroups ((groupsOf ip).drop (start + length))
            = colon :: colon :: formatGroups ((groupsOf ip).drop (start + length)) from rfl, htext]
          exact parseIP_of_colon fun v hv => ne_dot_colon_of_mem_hex hv

/-! ## What is read is an address -/

/-- Sixteen bytes. -/
structure IsAddress (ip : List Nat) : Prop where
  length : ip.length = ipv6Len
  bytes : ∀ b ∈ ip, b < 256

theorem parseOctet_lt {part : JsString} {octet : Nat} (h : parseOctet part = some octet) :
    octet < 256 := by
  simp only [parseOctet, Option.bind_eq_bind, Option.bind_eq_some_iff] at h
  obtain ⟨n, -, hn⟩ := h
  split at hn
  · cases hn
  · cases hn
    omega

theorem isAddress_ipv4 {a b c d : Nat} (ha : a < 256) (hb : b < 256) (hc : c < 256) (hd : d < 256) :
    IsAddress (ipv4 a b c d) where
  length := rfl
  bytes := by simp [ipv4, ha, hb, hc, hd]

theorem isAddress_of_parseIPv4Sloppy {value : JsString} {ip : List Nat}
    (h : parseIPv4Sloppy value = some ip) : IsAddress ip := by
  rw [parseIPv4Sloppy] at h
  split at h
  · simp only [Option.bind_eq_bind, Option.bind_eq_some_iff, Option.pure_def, Option.some.injEq] at h
    obtain ⟨a, ha, b, hb, c, hc, d, hd, rfl⟩ := h
    exact isAddress_ipv4 (parseOctet_lt ha) (parseOctet_lt hb) (parseOctet_lt hc) (parseOctet_lt hd)
  · cases h

/-- What the loop over the groups keeps: bytes, no more than there is room
for, and an ellipsis among them. -/
structure IsStart (ip : List Nat) (ellipsis : Option Nat) : Prop where
  length : ip.length ≤ ipv6Len
  bytes : ∀ b ∈ ip, b < 256
  ellipsis : ∀ at' ∈ ellipsis, at' ≤ ip.length

theorem IsStart.append {ip more : List Nat} {ellipsis : Option Nat} (h : IsStart ip ellipsis)
    (hlength : (ip ++ more).length ≤ ipv6Len) (hbytes : ∀ b ∈ more, b < 256) :
    IsStart (ip ++ more) ellipsis where
  length := hlength
  bytes b hb := (List.mem_append.mp hb).elim (h.bytes b) (hbytes b)
  ellipsis at' hat := by
    rw [List.length_append]
    exact Nat.le_add_right_of_le (h.ellipsis at' hat)

/-- An ellipsis after what was read. -/
theorem IsStart.here {ip : List Nat} {ellipsis : Option Nat} (h : IsStart ip ellipsis) :
    IsStart ip (some ip.length) where
  length := h.length
  bytes := h.bytes
  ellipsis at' hat := by
    cases hat
    exact Nat.le_refl _

theorem lt_of_mem_bytesOf {group b : Nat} (h : b ∈ bytesOf group) : b < 256 := by
  simp only [bytesOf, and_0xff, List.mem_cons, List.not_mem_nil, or_false] at h
  rcases h with rfl | rfl <;> exact Nat.mod_lt _ (by decide)

/-- By induction on the groups that there is room for. -/
theorem isStart_of_ipv6Groups (left : Nat) : ∀ (ip : List Nat) (ellipsis : Option Nat)
    (remaining : JsString) {ip' : List Nat} {ellipsis' : Option Nat} {rest : JsString},
    ip.length + 2 * left = ipv6Len → IsStart ip ellipsis →
    ipv6Groups left ip ellipsis remaining = some (ip', ellipsis', rest) → IsStart ip' ellipsis' := by
  induction left with
  | zero =>
    intro ip ellipsis remaining ip' ellipsis' rest _ hstart h
    cases h
    exact hstart
  | succ left ih =>
    intro ip ellipsis remaining ip' ellipsis' rest hroom hstart h
    have hgroup : ∀ n, IsStart (ip ++ bytesOf n) ellipsis := fun n =>
      hstart.append (by simp [bytesOf]; omega) fun b hb => lt_of_mem_bytesOf hb
    have hroom' : ∀ n, (ip ++ bytesOf n).length + 2 * left = ipv6Len := fun n => by
      simp [bytesOf]
      omega
    rw [ipv6Groups] at h
    split at h
    · cases h
    · rename_i n c hxtoi
      split at h
      · cases h
      · split at h
        · -- the rest is an IPv4 address
          split at h
          · cases h
          · split at h
            · cases h
            · rename_i hfits
              simp only [Option.map_eq_some_iff] at h
              obtain ⟨ip4, hip4, heq⟩ := h
              cases heq
              have haddress := isAddress_of_parseIPv4Sloppy hip4
              refine hstart.append ?_ fun b hb => haddress.bytes b (List.mem_of_mem_drop hb)
              rw [List.length_append, List.length_drop, haddress.length]
              simp only [ipv6Len, ipv4Len] at hfits ⊢
              omega
        · dsimp only at h
          split at h
          · cases h
            exact hgroup n
          · cases h
          · split at h
            · cases h
            · split at h
              · split at h
                · cases h
                · split at h
                  · cases h
                    exact (hgroup n).here
                  · exact ih _ _ _ (hroom' n) (hgroup n).here h
              · exact ih _ _ _ (hroom' n) (hgroup n) h

theorem isAddress_of_expandEllipsis {ip ip' : List Nat} {ellipsis : Option Nat}
    (hstart : IsStart ip ellipsis) (h : expandEllipsis ip ellipsis = some ip') : IsAddress ip' := by
  unfold expandEllipsis at h
  split at h
  · split at h
    · cases h
    · rename_i hlong
      cases h
      exact ⟨Nat.le_antisymm hstart.length (Nat.not_lt.mp hlong), hstart.bytes⟩
  · rename_i at'
    split at h
    · rename_i hshort
      cases h
      have hat := hstart.ellipsis at' rfl
      refine ⟨by simp; omega, fun b hb => ?_⟩
      simp only [List.mem_append, List.mem_replicate] at hb
      rcases hb with (hb | ⟨-, rfl⟩) | hb
      · exact hstart.bytes b (List.mem_of_mem_take hb)
      · decide
      · exact hstart.bytes b (List.mem_of_mem_drop hb)
    · cases h

theorem isAddress_of_finishIPv6 {ellipsis : Option Nat} {remaining : JsString} {ip : List Nat}
    (hstart : IsStart [] ellipsis)
    (h : finishIPv6 (ipv6Groups 8 [] ellipsis remaining) = some ip) : IsAddress ip := by
  cases hgroups : ipv6Groups 8 [] ellipsis remaining with
  | none =>
    rw [hgroups] at h
    cases h
  | some found =>
    obtain ⟨ip', ellipsis', rest⟩ := found
    rw [hgroups] at h
    cases rest with
    | nil => exact isAddress_of_expandEllipsis (isStart_of_ipv6Groups 8 _ _ _ rfl hstart hgroups) h
    | cons u rest => cases h

theorem isAddress_of_parseIPv6Sloppy {value : JsString} {ip : List Nat}
    (h : parseIPv6Sloppy value = some ip) : IsAddress ip := by
  rw [parseIPv6Sloppy] at h
  split at h
  · split at h
    · cases h
      exact ⟨rfl, by decide⟩
    · exact isAddress_of_finishIPv6 ⟨by decide, by simp, by simp⟩ h
  · exact isAddress_of_finishIPv6 ⟨by decide, by simp, by simp⟩ h

theorem isAddress_of_parseIP {value : JsString} {ip : List Nat} (h : parseIP value = some ip) :
    IsAddress ip := by
  rw [parseIP] at h
  split at h
  · cases h
  · split at h
    · exact isAddress_of_parseIPv4Sloppy h
    · exact isAddress_of_parseIPv6Sloppy h

/-- **The printed form is canonical.** It is read back as the address it was
printed from, an IPv4 address is printed with dots, and of two texts that are
accepted the printed forms agree just when the addresses do. -/
theorem formatIP_canonical (value other : JsString) (ip ip' : List Nat) :
    (IsAddress ip → parseIP (formatIP ip) = some ip)
      ∧ (∀ a b c d, formatIP (ipv4 a b c d) = join [dot] [decimal a, decimal b, decimal c, decimal d])
      ∧ (parseIP value = some ip → IsAddress ip ∧ parseIP (formatIP ip) = some ip)
      ∧ (parseIP value = some ip → parseIP other = some ip' → (formatIP ip = formatIP ip' ↔ ip = ip')) := by
  have hback : ∀ {ip : List Nat}, IsAddress ip → parseIP (formatIP ip) = some ip :=
    fun h => parseIP_formatIP h.length h.bytes
  refine ⟨hback, fun a b c d => rfl, fun h => ?_, fun h h' => ?_⟩
  · have haddress := isAddress_of_parseIP h
    exact ⟨haddress, hback haddress⟩
  · constructor
    · intro hformat
      have hsame := hback (isAddress_of_parseIP h)
      rw [hformat, hback (isAddress_of_parseIP h')] at hsame
      cases hsame
      rfl
    · intro heq
      rw [heq]

/-- An embedded IPv4 tail is printed with dots, and read back. -/
theorem formatIP_canonical_mapped :
    parseIP (js "::FFFF:010.0.0.1") = some (ipv4 10 0 0 1)
      ∧ parseIP (formatIP (ipv4 10 0 0 1)) = some (ipv4 10 0 0 1)
      ∧ (formatIP (ipv4 10 0 0 1) = formatIP (ipv4 10 0 0 1) ↔ ipv4 10 0 0 1 = ipv4 10 0 0 1) := by
  have hvalue : parseIP (js "::FFFF:010.0.0.1") = some (ipv4 10 0 0 1) := by decide
  have hother : parseIP (js "10.0.0.1") = some (ipv4 10 0 0 1) := by decide
  obtain ⟨hformat, -, hread, hcanonical⟩ :=
    formatIP_canonical (js "::FFFF:010.0.0.1") (js "10.0.0.1") (ipv4 10 0 0 1) (ipv4 10 0 0 1)
  exact ⟨hvalue, hformat (hread hvalue).1, hcanonical hvalue hother⟩

end Webernetes.Net
