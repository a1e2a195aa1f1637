/-
Webernetes.Util.NormalizedNames — that a normalised reference stays as it
is, and which prefixes of a name may be left out.

`normalized` is the domain and the remainder of a name, put together again.
A name that is accepted has the reference that `normalized` parses to
(`parseNormalizedNamed_ok`), with every unit of it (`parse_string`), and
`normalized` does nothing more to it (`splitDockerDomain_normalized`).
-/
import Webernetes.Util.Parsers

namespace Webernetes.Util.Parsers

open Js Regexp

/-! ## Cutting a string -/

theorem cut_some {u : CodeUnit} {s a b : JsString} (h : cut u s = some (a, b)) :
    s = a ++ u :: b ∧ u ∉ a := by
  induction s generalizing a with
  | nil => cases h
  | cons v rest ih =>
    simp only [cut] at h
    split at h
    · rename_i hv
      cases h
      rw [hv]
      exact ⟨rfl, by simp⟩
    · rename_i hv
      obtain ⟨⟨a', b'⟩, hcut, heq⟩ := Option.map_eq_some_iff.mp h
      cases heq
      obtain ⟨hrest, hmem⟩ := ih hcut
      refine ⟨by rw [hrest]; rfl, ?_⟩
      simp only [List.mem_cons, not_or]
      exact ⟨fun heq => hv heq.symm, hmem⟩

theorem cut_append {u : CodeUnit} {a : JsString} (b : JsString) (h : u ∉ a) :
    cut u (a ++ u :: b) = some (a, b) := by
  induction a with
  | nil => simp [cut]
  | cons v rest ih =>
    simp only [List.mem_cons, not_or] at h
    simp [cut, Ne.symm h.1, ih h.2]

theorem cut_none {u : CodeUnit} {s : JsString} : cut u s = none ↔ u ∉ s := by
  constructor
  · intro h hmem
    obtain ⟨a, b, rfl, ha⟩ := List.eq_append_cons_of_mem hmem
    rw [cut_append b ha] at h
    cases h
  · intro h
    cases hcut : cut u s with
    | none => rfl
    | some p =>
      obtain ⟨a, b⟩ := p
      rw [(cut_some hcut).1] at h
      simp at h

/-! ## The two expressions -/

/-- A part of a reference with the unit before it, if there is one. -/
def part (u : CodeUnit) : Option JsString → JsString
  | none => []
  | some text => u :: text

theorem matchAll_part {u : CodeUnit} {index : Nat} {r : Regexp} {captures : Captures}
    {s : JsString} {m : JsString × Captures}
    (h : m ∈ (optional (seq (literal u) (group index r))).matchAll captures s)
    (hfree : captures index = none) (hr : r.nullable = false) :
    s = part u (m.2 index) ++ m.1 ∧ m.2 index ≠ some [] := by
  obtain ⟨x, hs, hL, hcapture⟩ | ⟨hs, hcapture⟩ := matchAll_optional_literal_group h hfree
  · rw [hcapture]
    refine ⟨hs, ?_⟩
    intro heq
    exact hL.ne_nil hr (Option.some.inj heq)
  · rw [hcapture, hs]
    exact ⟨rfl, by simp⟩

/-- **What `referenceRegexp` takes** is a name, a tag and a digest, none of
them empty. -/
theorem exec_referenceRegexp {s : JsString} {matched : Captures}
    (h : referenceRegexp.exec s = some matched) :
    ∃ name, matched 1 = some name ∧ name ≠ [] ∧ matched 2 ≠ some [] ∧ matched 3 ≠ some []
      ∧ s = name ++ part colon (matched 2) ++ part at_ (matched 3) := by
  obtain ⟨m₁, hm₁, h⟩ := List.mem_flatMap.mp (exec_mem h)
  obtain ⟨m₂, hm₂, hm₃⟩ := List.mem_flatMap.mp h
  obtain ⟨name, hs, hname, hcapture⟩ := matchAll_group hm₁
  -- a part captures its own group only
  have htag₁ : m₁.2 2 = none := matchAll_frame (by decide) hm₁
  have hname₂ : m₂.2 1 = m₁.2 1 := matchAll_frame (by decide) hm₂
  have hdigest₂ : m₂.2 3 = m₁.2 3 := matchAll_frame (by decide) hm₂
  have hdigest₁ : m₁.2 3 = none := matchAll_frame (by decide) hm₁
  have hname₃ : matched 1 = m₂.2 1 := matchAll_frame (m := ([], matched)) (by decide) hm₃
  have htag₃ : matched 2 = m₂.2 2 := matchAll_frame (m := ([], matched)) (by decide) hm₃
  obtain ⟨htag, htagne⟩ := matchAll_part hm₂ htag₁ rfl
  obtain ⟨hdigest, hdigestne⟩ := matchAll_part hm₃ (hdigest₂.trans hdigest₁) rfl
  refine ⟨name, by rw [hname₃, hname₂, hcapture], hname.ne_nil rfl, ?_, hdigestne, ?_⟩
  · rw [htag₃]
    exact htagne
  · rw [hs, htag, hdigest, htag₃, List.append_nil, List.append_assoc]

/-- **How a name is split**: a domain before the first slash and the path
behind it, or all of it a path. -/
theorem repositoryOf_cases (name : JsString) :
    (∃ domain path, repositoryOf name = ⟨domain, path⟩ ∧ domain ≠ [] ∧ slash ∉ domain
        ∧ name = domain ++ slash :: path)
      ∨ repositoryOf name = ⟨[], name⟩ := by
  unfold repositoryOf
  split
  · rename_i nameMatch h
    obtain ⟨m, hm, hpath⟩ := List.mem_flatMap.mp (exec_mem h)
    have hdomain : nameMatch 1 = m.2 1 := matchAll_frame (m := ([], nameMatch)) (by decide) hpath
    obtain ⟨path, hs, -, hcapture⟩ := matchAll_group hpath
    have hcapture' : nameMatch 2 = some path := hcapture
    rw [List.append_nil] at hs
    obtain hm | rfl := matchAll_optional hm
    · obtain ⟨m', hm', hslash⟩ := List.mem_flatMap.mp hm
      have hkept : m.2 1 = m'.2 1 := matchAll_frame (by decide) hslash
      obtain ⟨x, hx, v, rfl, hv⟩ := matchAll_sound hslash
      obtain ⟨domain, hname, hL, hcaptured⟩ := matchAll_group hm'
      refine .inl ⟨domain, path, ?_, hL.ne_nil rfl, hL.not_mem rfl, ?_⟩
      · rw [hdomain, hkept, hcaptured, hcapture']
        rfl
      · rw [hname, hx, hs, of_decide_eq_true hv]
        rfl
    · refine .inr ?_
      rw [hdomain, hcapture', ← hs]
      rfl
  · exact .inr rfl

/-- The domain and the path are the name. -/
theorem repositoryOf_name (name : JsString) : (repositoryOf name).name = name := by
  obtain ⟨domain, path, h, hne, -, hname⟩ | h := repositoryOf_cases name
  · rw [h]
    simp [Repository.name, hne, hname]
  · rw [h]
    rfl

/-! ## What is parsed -/

/-- A tag and a digest that are there are not empty. -/
def Named.Proper (named : Named) : Prop := named.asTagged ≠ some [] ∧ named.asDigested ≠ some []

/-- **The string of a reference** is its name, its tag and its digest. -/
theorem Named.string_eq (named : Named) :
    named.string = named.name ++ part colon named.asTagged ++ part at_ named.asDigested := by
  cases named with
  | repository repo => simp [string, name, namedRepository, asTagged, asDigested, part]
  | tagged repo tag => simp [string, name, namedRepository, asTagged, asDigested, part]
  | canonical repo digest => simp [string, name, namedRepository, asTagged, asDigested, part]
  | value repo tag digest => simp [string, name, namedRepository, asTagged, asDigested, part]

theorem getBestReferenceType_named {repo : Repository} {tag digest : Option JsString}
    (hname : repo.name ≠ []) (htag : tag ≠ some []) (hdigest : digest ≠ some []) :
    ∃ named, getBestReferenceType repo (tag.getD []) (digest.getD []) = some (.named named)
      ∧ named.namedRepository = repo ∧ named.asTagged = tag ∧ named.asDigested = digest := by
  have hne : ∀ {text : JsString}, some text ≠ some [] → text ≠ [] := fun h heq => h (heq ▸ rfl)
  unfold getBestReferenceType
  cases tag with
  | none =>
    cases digest with
    | none => exact ⟨.repository repo, by simp [hname], rfl, rfl, rfl⟩
    | some digest => exact ⟨.canonical repo digest, by simp [hname, hne hdigest], rfl, rfl, rfl⟩
  | some tag =>
    cases digest with
    | none => exact ⟨.tagged repo tag, by simp [hname, hne htag], rfl, rfl, rfl⟩
    | some digest =>
      exact ⟨.value repo tag digest, by simp [hname, hne htag, hne hdigest], rfl, rfl, rfl⟩

theorem parseDigest_ok {s digest : JsString} (h : parseDigest s = .ok digest) : digest = s := by
  unfold parseDigest at h
  split at h
  · cases h
  · split at h
    · split at h
      · cases h
        rfl
      · cases h
    · split at h
      · split at h
        · cases h
          rfl
        · cases h
      · cases h

theorem checkedDigest_ok {s digest : JsString} (h : checkedDigest s = .ok digest) : digest = s := by
  unfold checkedDigest at h
  split at h
  · rename_i hempty
    cases h
    exact (List.isEmpty_iff.mp hempty).symm
  · exact parseDigest_ok h

/-- **What is parsed is the string**: the reference has a name, and every
unit of the string. -/
theorem parse_string {unicode : JsString → JsString} {s : JsString} {reference : Reference}
    (h : parse unicode s = .ok reference) :
    ∃ named, reference = .named named ∧ named.string = s ∧ named.Proper
      ∧ named.namedRepository = repositoryOf named.name := by
  unfold parse at h
  split at h
  · split at h
    · cases h
    · split at h
      · cases h
      · cases h
  · rename_i matched hexec
    obtain ⟨name, hname, hne, htag, hdigest, hs⟩ := exec_referenceRegexp hexec
    have hrepo := repositoryOf_name name
    obtain ⟨named, hbest, hnamed, hasTagged, hasDigested⟩ :=
      getBestReferenceType_named (hrepo ▸ hne) htag hdigest
    have hnamedName : named.name = name := by rw [Named.name, hnamed, hrepo]
    simp only [hname, Option.getD_some] at h
    split at h
    · cases h
    · split at h
      · cases h
      · rename_i digest hchecked
        rw [checkedDigest_ok hchecked, hbest] at h
        cases h
        refine ⟨named, rfl, ?_, ⟨?_, ?_⟩, ?_⟩
        · rw [Named.string_eq, hnamedName, hasTagged, hasDigested, hs]
        · rw [hasTagged]
          exact htag
        · rw [hasDigested]
          exact hdigest
        · rw [hnamed, hnamedName]

/-! ## Normalised names -/

section

variable (unicode : JsString → JsString)

/-- The domain and the remainder of a name. -/
def normalized (s : JsString) : JsString :=
  (splitDockerDomain unicode s).1 ++ slash :: (splitDockerDomain unicode s).2

/-- **The reference of an accepted name** is what its normalised string
parses to. -/
theorem parseNormalizedNamed_ok {s : JsString} {named : Named}
    (h : parseNormalizedNamed unicode s = .ok named) :
    toLowerCase unicode (upTo colon (splitDockerDomain unicode s).2)
        = upTo colon (splitDockerDomain unicode s).2
      ∧ parse unicode (normalized unicode s) = .ok (.named named) := by
  unfold parseNormalizedNamed at h
  split at h
  · cases h
  · simp only at h
    split at h
    · cases h
    · rename_i hlower
      split at h
      · cases h
      · rename_i named' hparse
        cases h
        exact ⟨not_not.mp hlower, hparse⟩
      · cases h

theorem isDomain_defaultDomain : isDomain unicode defaultDomain = true := by
  have hdot : defaultDomain.any (fun u => decide (u = dot) || decide (u = colon)) = true := by
    decide
  simp [isDomain, hdot]

/-- The remainder behind the default domain. -/
def official (remoteName : JsString) : JsString :=
  if (cut slash remoteName).isNone then officialRepoPrefix ++ remoteName else remoteName

theorem official_of_slash {remoteName : JsString} (h : slash ∈ remoteName) :
    official remoteName = remoteName := by
  have hcut : ¬ (cut slash remoteName).isNone = true := by
    rw [Option.isNone_iff_eq_none, cut_none]
    exact not_not.mpr h
  exact if_neg hcut

theorem official_of_no_slash {remoteName : JsString} (h : slash ∉ remoteName) :
    official remoteName = officialRepoPrefix ++ remoteName := by
  have hcut : (cut slash remoteName).isNone = true := by
    rw [Option.isNone_iff_eq_none, cut_none]
    exact h
  exact if_pos hcut

theorem slash_mem_official (remoteName : JsString) : slash ∈ official remoteName := by
  by_cases h : slash ∈ remoteName
  · rw [official_of_slash h]
    exact h
  · rw [official_of_no_slash h]
    exact List.mem_append_left _ (by decide)

theorem official_length (remoteName : JsString) :
    (official remoteName).length ≤ remoteName.length + 8 := by
  by_cases h : slash ∈ remoteName
  · rw [official_of_slash h]
    omega
  · rw [official_of_no_slash h, List.length_append]
    have hlength : officialRepoPrefix.length = 8 := by decide
    omega

theorem splitDockerDomain_of_no_slash {s : JsString} (h : slash ∉ s) :
    splitDockerDomain unicode s = (defaultDomain, officialRepoPrefix ++ s) := by
  unfold splitDockerDomain
  rw [cut_none.mpr h]

/-- How a name with a slash is split. -/
theorem splitDockerDomain_of_slash {c : JsString} (r : JsString) (h : slash ∉ c) :
    splitDockerDomain unicode (c ++ slash :: r) =
      if isDomain unicode c then
        if c = legacyDefaultDomain ∨ c = defaultDomain then (defaultDomain, official r) else (c, r)
      else (defaultDomain, c ++ slash :: r) := by
  have hofficial : ∀ remoteName,
      (if defaultDomain = defaultDomain ∧ (cut slash remoteName).isNone = true then
        (defaultDomain, officialRepoPrefix ++ remoteName)
      else (defaultDomain, remoteName)) = (defaultDomain, official remoteName) := by
    intro remoteName
    by_cases hcut : (cut slash remoteName).isNone = true
    · simp [official, hcut]
    · simp [official, hcut]
  unfold splitDockerDomain
  rw [cut_append r h]
  by_cases hdomain : isDomain unicode c = true
  · by_cases hlegacy : c = legacyDefaultDomain
    · simp only [hlegacy, if_true, true_or]
      exact hofficial r
    · by_cases hdefault : c = defaultDomain
      · simp only [hdefault, isDomain_defaultDomain, if_true, or_true]
        exact hofficial r
      · simp [hdomain, hlegacy, hdefault]
  · simp [hdomain, cut_append r h]

/-- The default domain is a domain in its own right. -/
theorem splitDockerDomain_default (r : JsString) :
    splitDockerDomain unicode (defaultDomain ++ slash :: r) = (defaultDomain, official r) := by
  rw [splitDockerDomain_of_slash unicode r (by decide), if_pos (isDomain_defaultDomain unicode),
    if_pos (.inr rfl)]

/-- **What is normalised stays as it is.** -/
theorem splitDockerDomain_normalized (s : JsString) :
    splitDockerDomain unicode (normalized unicode s) = splitDockerDomain unicode s := by
  unfold normalized
  cases hcut : cut slash s with
  | none =>
    rw [splitDockerDomain_of_no_slash unicode (cut_none.mp hcut), splitDockerDomain_default,
      official_of_slash (List.mem_append_left _ (by decide))]
  | some p =>
    obtain ⟨c, r⟩ := p
    obtain ⟨rfl, hc⟩ := cut_some hcut
    rw [splitDockerDomain_of_slash unicode r hc]
    split
    · rename_i hdomain
      split
      · rw [splitDockerDomain_default, official_of_slash (slash_mem_official r)]
      · rename_i hother
        rw [splitDockerDomain_of_slash unicode r hc, if_pos hdomain, if_neg hother]
    · rw [splitDockerDomain_default, official_of_slash (by simp)]

theorem splitDockerDomain_no_slash (s : JsString) : slash ∉ (splitDockerDomain unicode s).1 := by
  have hdefault : slash ∉ defaultDomain := by decide
  cases hcut : cut slash s with
  | none =>
    rw [splitDockerDomain_of_no_slash unicode (cut_none.mp hcut)]
    exact hdefault
  | some p =>
    obtain ⟨c, r⟩ := p
    obtain ⟨rfl, hc⟩ := cut_some hcut
    rw [splitDockerDomain_of_slash unicode r hc]
    split
    · split
      · exact hdefault
      · exact hc
    · exact hdefault

/-- No identifier has a slash. -/
theorem identifier_no_slash {s : JsString} (h : anchoredIdentifierRegexp.test s = true) :
    slash ∉ s := by
  obtain ⟨captures, h⟩ := Option.isSome_iff_exists.mp h
  exact (lang_of_exec h).not_mem rfl

/-- **Normalising is idempotent**: the normalised string of an accepted name
has the same reference. -/
theorem parseNormalizedNamed_normalized {s : JsString} {named : Named}
    (h : parseNormalizedNamed unicode s = .ok named) :
    parseNormalizedNamed unicode (normalized unicode s) = .ok named := by
  obtain ⟨hlower, hparse⟩ := parseNormalizedNamed_ok unicode h
  have hidentifier : ¬ anchoredIdentifierRegexp.test (normalized unicode s) = true := by
    intro htest
    exact identifier_no_slash htest (by simp [normalized])
  unfold parseNormalizedNamed
  rw [if_neg hidentifier, splitDockerDomain_normalized]
  simp only [hlower]
  rw [if_neg (by simp)]
  rw [← normalized, hparse]

/-- **The two splits agree**: an accepted name has the domain that was
guessed, or no domain. -/
theorem parseNormalizedNamed_domain {s : JsString} {named : Named}
    (h : parseNormalizedNamed unicode s = .ok named) :
    named.domain = [] ∨ named.domain = (splitDockerDomain unicode s).1 := by
  obtain ⟨-, hparse⟩ := parseNormalizedNamed_ok unicode h
  obtain ⟨_, heq, hstring, -, hrepo⟩ := parse_string hparse
  cases heq
  rw [Named.domain, hrepo]
  obtain ⟨domain, path, hcase, -, hslash, hname⟩ | hcase := repositoryOf_cases named.name
  · rw [hcase]
    rw [Named.string_eq, hname, List.append_assoc, List.append_assoc, List.cons_append,
      normalized] at hstring
    have hcut := congrArg (cut slash) hstring
    rw [cut_append _ hslash, cut_append _ (splitDockerDomain_no_slash unicode s)] at hcut
    exact .inr (congrArg Prod.fst (Option.some.inj hcut))
  · rw [hcase]
    exact .inl rfl

theorem parseNormalizedNamed_domain_tagged :
    (Named.tagged ⟨js "a.b", js "c"⟩ (js "1")).domain = []
      ∨ (Named.tagged ⟨js "a.b", js "c"⟩ (js "1")).domain = (splitDockerDomain id (js "a.b/c:1")).1 :=
  parseNormalizedNamed_domain id rfl

/-- Accepted names have one reference exactly when they are normalised to
one string. -/
theorem parseNormalizedNamed_eq_iff {s t : JsString} {named named' : Named}
    (hs : parseNormalizedNamed unicode s = .ok named)
    (ht : parseNormalizedNamed unicode t = .ok named') :
    named' = named ↔ normalized unicode t = normalized unicode s := by
  obtain ⟨-, hparse⟩ := parseNormalizedNamed_ok unicode hs
  obtain ⟨-, hparse'⟩ := parseNormalizedNamed_ok unicode ht
  obtain ⟨_, heq, hstring, -⟩ := parse_string hparse
  obtain ⟨_, heq', hstring', -⟩ := parse_string hparse'
  cases heq
  cases heq'
  constructor
  · intro h
    rw [← hstring, ← hstring', h]
  · intro h
    rw [h, hparse] at hparse'
    cases hparse'
    rfl

/-! ## Prefixes that are left out -/

/-- What stands before the first slash is a domain. -/
def HasDomain (s : JsString) : Prop := ∃ c r, cut slash s = some (c, r) ∧ isDomain unicode c = true

theorem normalized_of_no_slash {s : JsString} (h : slash ∉ s) :
    normalized unicode s = defaultDomain ++ slash :: (officialRepoPrefix ++ s) := by
  rw [normalized, splitDockerDomain_of_no_slash unicode h]

theorem normalized_default (r : JsString) :
    normalized unicode (defaultDomain ++ slash :: r) = defaultDomain ++ slash :: official r := by
  rw [normalized, splitDockerDomain_default]

theorem normalized_legacy (r : JsString) :
    normalized unicode (legacyDefaultDomain ++ slash :: r)
      = defaultDomain ++ slash :: official r := by
  have hdomain : isDomain unicode legacyDefaultDomain = true := by simp [isDomain]
  rw [normalized, splitDockerDomain_of_slash unicode r (by decide), if_pos hdomain,
    if_pos (.inl rfl)]

theorem normalized_of_not_hasDomain {s : JsString} (h : ¬ HasDomain unicode s) (hs : slash ∈ s) :
    normalized unicode s = defaultDomain ++ slash :: s := by
  obtain ⟨c, r, rfl, hc⟩ := List.eq_append_cons_of_mem hs
  have hdomain : ¬ isDomain unicode c = true := fun hdomain => h ⟨c, r, cut_append r hc, hdomain⟩
  rw [normalized, splitDockerDomain_of_slash unicode r hc, if_neg hdomain]

/-- A name with a domain gets at most `library/` longer. -/
theorem normalized_length_of_hasDomain {s : JsString} (h : HasDomain unicode s) :
    (normalized unicode s).length ≤ s.length + 8 := by
  obtain ⟨c, r, hcut, hdomain⟩ := h
  obtain ⟨rfl, hc⟩ := cut_some hcut
  have hlength : defaultDomain.length = 9 ∧ legacyDefaultDomain.length = 15 := by decide
  rw [normalized, splitDockerDomain_of_slash unicode r hc, if_pos hdomain]
  split
  · rename_i hdefault
    have hofficial := official_length r
    obtain rfl | rfl := hdefault
    · simp only [List.length_append, List.length_cons]
      omega
    · simp only [List.length_append, List.length_cons]
      omega
  · simp only [List.length_append, List.length_cons]
    omega

/-- A name with a slash gets at most `docker.io/` longer. -/
theorem normalized_length_of_slash {s : JsString} (hs : slash ∈ s) :
    (normalized unicode s).length ≤ s.length + 10 := by
  by_cases h : HasDomain unicode s
  · have hle := normalized_length_of_hasDomain unicode h
    omega
  · rw [normalized_of_not_hasDomain unicode h hs]
    have hlength : defaultDomain.length = 9 := by decide
    simp only [List.length_append, List.length_cons]
    omega

theorem not_hasDomain_of_no_slash {s : JsString} (h : slash ∉ s) : ¬ HasDomain unicode s := by
  rintro ⟨c, r, hcut, -⟩
  rw [cut_none.mpr h] at hcut
  cases hcut

/-- **`docker.io/` may be left out** exactly in front of what has no domain
of its own. -/
theorem omitsDefaultDomain_iff (s : JsString) :
    normalized unicode (defaultDomain ++ slash :: s) = normalized unicode s
      ↔ ¬ HasDomain unicode s := by
  rw [normalized_default]
  by_cases hs : slash ∈ s
  · rw [official_of_slash hs]
    constructor
    · intro heq h
      have hle := normalized_length_of_hasDomain unicode h
      have hlength : defaultDomain.length = 9 := by decide
      rw [← heq] at hle
      simp only [List.length_append, List.length_cons] at hle
      omega
    · intro h
      exact (normalized_of_not_hasDomain unicode h hs).symm
  · rw [official_of_no_slash hs, normalized_of_no_slash unicode hs]
    exact iff_of_true rfl (not_hasDomain_of_no_slash unicode hs)

theorem normalized_official (r : JsString) :
    normalized unicode (officialRepoPrefix ++ r)
      = defaultDomain ++ slash :: (officialRepoPrefix ++ r) := by
  have hlibrary : officialRepoPrefix ++ r = js "library" ++ slash :: r := rfl
  have hdomain : isDomain unicode (js "library") = false := by rfl
  rw [hlibrary, normalized, splitDockerDomain_of_slash unicode r (by decide), hdomain]
  rfl

theorem official_officialRepoPrefix_iff (r : JsString) :
    official (officialRepoPrefix ++ r) = official r ↔ slash ∉ r := by
  rw [official_of_slash (List.mem_append_left _ (by decide))]
  by_cases hr : slash ∈ r
  · rw [official_of_slash hr]
    refine iff_of_false ?_ (not_not.mpr hr)
    intro heq
    have hlength := congrArg List.length heq
    have height : officialRepoPrefix.length = 8 := by decide
    rw [List.length_append] at hlength
    omega
  · rw [official_of_no_slash hr]
    exact iff_of_true rfl hr

/-- Where `library/` may be left out: in front of a name and behind the two
default domains. -/
def officialPlaces : List JsString :=
  [[], defaultDomain ++ [slash], legacyDefaultDomain ++ [slash]]

/-- **`library/` may be left out** exactly in front of what has no slash. -/
theorem omitsOfficialRepo_iff {place : JsString} (hplace : place ∈ officialPlaces) (r : JsString) :
    normalized unicode (place ++ (officialRepoPrefix ++ r)) = normalized unicode (place ++ r)
      ↔ slash ∉ r := by
  simp only [officialPlaces, List.mem_cons, List.not_mem_nil, or_false] at hplace
  obtain rfl | rfl | rfl := hplace
  · rw [List.nil_append, List.nil_append, normalized_official]
    by_cases hr : slash ∈ r
    · refine iff_of_false ?_ (not_not.mpr hr)
      intro heq
      have hle := normalized_length_of_slash unicode hr
      have hlength : defaultDomain.length = 9 ∧ officialRepoPrefix.length = 8 := by decide
      rw [← heq] at hle
      simp only [List.length_append, List.length_cons] at hle
      omega
    · rw [normalized_of_no_slash unicode hr]
      exact iff_of_true rfl hr
  · rw [List.append_assoc, List.append_assoc, List.singleton_append, List.singleton_append,
      normalized_default, normalized_default, ← official_officialRepoPrefix_iff]
    simp
  · rw [List.append_assoc, List.append_assoc, List.singleton_append, List.singleton_append,
      normalized_legacy, normalized_legacy, ← official_officialRepoPrefix_iff]
    simp

/-- Both may be left out exactly in front of what has no slash. -/
theorem omitsBoth_iff (s : JsString) :
    normalized unicode (defaultDomain ++ slash :: (officialRepoPrefix ++ s)) = normalized unicode s
      ↔ slash ∉ s := by
  rw [normalized_default, official_of_slash (List.mem_append_left _ (by decide)),
    ← normalized_official unicode]
  exact @omitsOfficialRepo_iff unicode [] (by simp [officialPlaces]) s

theorem parseImageName_ok {s : JsString} {named : Named}
    (h : parseNormalizedNamed unicode s = .ok named) (hproper : named.Proper) :
    parseImageName unicode s = .ok (named.name,
      if named.asTagged.isNone && named.asDigested.isNone then js "latest"
      else named.asTagged.getD [], named.asDigested.getD []) := by
  have hempty : ∀ {text : Option JsString}, text ≠ some [] →
      (text.getD []).isEmpty = text.isNone := by
    intro text htext
    cases text with
    | none => rfl
    | some text =>
      cases text with
      | nil => exact absurd rfl htext
      | cons u rest => rfl
  unfold parseImageName
  rw [h]
  simp only [hempty hproper.1, hempty hproper.2]

/-- **Normalised names**: the string of an accepted reference is its name,
its tag and its digest, and is accepted as the same reference;
`parseImageName` gives these; and a prefix may be left out exactly in front
of what has no domain, or no slash. -/
theorem normalized_names {s : JsString} {named : Named}
    (h : parseNormalizedNamed unicode s = .ok named) :
    parseNormalizedNamed unicode named.string = .ok named
      ∧ named.string = named.name ++ part colon named.asTagged ++ part at_ named.asDigested
      ∧ named.Proper
      ∧ parseImageName unicode s = .ok (named.name,
        if named.asTagged.isNone && named.asDigested.isNone then js "latest"
        else named.asTagged.getD [], named.asDigested.getD [])
      ∧ ∀ t named', parseNormalizedNamed unicode t = .ok named' →
        (t = defaultDomain ++ slash :: s → (named' = named ↔ ¬ HasDomain unicode s))
        ∧ (t = defaultDomain ++ slash :: (officialRepoPrefix ++ s) → (named' = named ↔ slash ∉ s))
        ∧ ∀ place ∈ officialPlaces, ∀ r, s = place ++ r → t = place ++ (officialRepoPrefix ++ r) →
          (named' = named ↔ slash ∉ r) := by
  obtain ⟨-, hparse⟩ := parseNormalizedNamed_ok unicode h
  obtain ⟨_, heq, hstring, hproper, -⟩ := parse_string hparse
  cases heq
  refine ⟨?_, named.string_eq, hproper, parseImageName_ok unicode h hproper, ?_⟩
  · rw [hstring]
    exact parseNormalizedNamed_normalized unicode h
  · intro t named' ht
    rw [parseNormalizedNamed_eq_iff unicode h ht]
    refine ⟨?_, ?_, ?_⟩
    · rintro rfl
      exact omitsDefaultDomain_iff unicode s
    · rintro rfl
      exact omitsBoth_iff unicode s
    · rintro place hplace r rfl rfl
      exact omitsOfficialRepo_iff unicode hplace r

end

theorem normalized_names_tagged :
    parseImageName id (js "a.b/c:1") = .ok (js "a.b/c", js "1", []) :=
  (@normalized_names id (js "a.b/c:1") (.tagged ⟨js "a.b", js "c"⟩ (js "1")) rfl).2.2.2.1

/-- Behind `docker.io/`, a domain is a part of the path. -/
theorem default_domain_not_omitted :
    ∃ named named', parseNormalizedNamed id (js "a.b/c") = .ok named
      ∧ parseNormalizedNamed id (defaultDomain ++ slash :: js "a.b/c") = .ok named'
      ∧ named' ≠ named :=
  ⟨.repository ⟨js "a.b", js "c"⟩, .repository ⟨js "docker.io", js "a.b/c"⟩, rfl, rfl, by decide⟩

end Webernetes.Util.Parsers
