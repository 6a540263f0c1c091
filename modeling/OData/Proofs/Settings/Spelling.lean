import OData.Proofs.Settings
import OData.Proofs.Text.Words

/-!
# Spellings of a depth limit

A positive number has many spellings: there may be zeros before its digits, a sign before these, and
white space around all of it. Just these texts set a limit, and the limit they set is the number
itself, however many zeros there are. A number of more than 64 bits is refused in every spelling,
and so is zero.

## Main statements

* `digits_append` — digits behind the digits of a number
* `depthText_iff_spells` — the texts that set a limit are the spellings of it
* `ofEnvironment_exact` — how an environment is loaded
-/

namespace OData

open Text

namespace Text

variable {text : List Char} {n : Nat}

/-! ## Digits -/

theorem exists_digitChar {c : Char} (h : c.isDigit = true) : ∃ d < 10, c = d.digitChar := by
  obtain ⟨hlow, hhigh⟩ : 48 ≤ c.toNat ∧ c.toNat ≤ 57 := Char.isDigit_iff_toNat.1 h
  have hlt : c.toNat - 48 < 10 := by omega
  refine ⟨c.toNat - 48, hlt, ?_⟩
  rw [← Char.toNat_inj, Nat.toNat_digitChar_of_lt_ten hlt]
  omega

theorem digits_of_lt {d : Nat} (h : d < 10) : digits d = [d.digitChar] :=
  Nat.toDigits_of_lt_base h

/-- **Digits behind the digits of a positive number are the last digits of a greater one.** -/
theorem digits_append (hn : 0 < n) (htext : ∀ c ∈ text, c.isDigit = true) :
    digits n ++ text = digits (Nat.ofDigitChars 10 text n) := by
  induction text generalizing n with
  | nil => rw [List.append_nil, Nat.ofDigitChars_nil]
  | cons c rest ih =>
    obtain ⟨hc, hrest⟩ := List.forall_mem_cons.1 htext
    obtain ⟨d, hd, rfl⟩ := exists_digitChar hc
    calc digits n ++ d.digitChar :: rest
        = digits n ++ digits d ++ rest := by
          rw [digits_of_lt hd, List.append_assoc, List.singleton_append]
      _ = digits (10 * n + d) ++ rest := by
          rw [digits, digits, Nat.toDigits_append_toDigits (by decide) hn hd, digits]
      _ = digits (Nat.ofDigitChars 10 (d.digitChar :: rest) n) := by
          rw [ih (by omega) hrest, Nat.ofDigitChars_cons_digitChar_of_lt_ten hd]

/-- Digits that write a positive number are the digits of it with zeros before them. -/
theorem exists_zeros (hpos : 0 < Nat.ofDigitChars 10 text 0)
    (htext : ∀ c ∈ text, c.isDigit = true) :
    ∃ zeros, text = List.replicate zeros '0' ++ digits (Nat.ofDigitChars 10 text 0) := by
  induction text with
  | nil => exact absurd hpos (Nat.lt_irrefl 0)
  | cons c rest ih =>
    obtain ⟨hc, hrest⟩ := List.forall_mem_cons.1 htext
    obtain ⟨d, hd, rfl⟩ := exists_digitChar hc
    rw [Nat.ofDigitChars_cons_digitChar_of_lt_ten hd, Nat.mul_zero, Nat.zero_add] at hpos ⊢
    rcases Nat.eq_zero_or_pos d with rfl | hdpos
    · obtain ⟨zeros, hzeros⟩ := ih hpos hrest
      refine ⟨zeros + 1, ?_⟩
      rw [List.replicate_succ, List.cons_append, ← hzeros]
      rfl
    · exact ⟨0, by rw [← digits_append hdpos hrest, digits_of_lt hd]; rfl⟩

/-- **The texts that are read as a positive number are its digits with zeros before them.** -/
theorem natural?_eq_some_iff_zeros (hn : 0 < n) :
    natural? text = some n ↔ ∃ zeros, text = List.replicate zeros '0' ++ digits n := by
  rw [natural?_eq_some_iff]
  constructor
  · rintro ⟨-, hdigits, rfl⟩
    exact exists_zeros hn hdigits
  · rintro ⟨zeros, rfl⟩
    refine ⟨List.append_ne_nil_of_right_ne_nil _ Nat.toDigits_ne_nil, fun c hc => ?_, ?_⟩
    · rcases List.mem_append.1 hc with hc | hc
      · rw [List.eq_of_mem_replicate hc]
        rfl
      · exact Nat.isDigit_of_mem_toDigits (by decide) (by decide) hc
    · rw [Nat.ofDigitChars_append, Nat.ofDigitChars_replicate_zero, Nat.mul_zero]
      exact Nat.ofDigitChars_ten_toDigits

/-! ## Spellings -/

/-- The text spells the number: its digits with zeros and perhaps a `+` before them, and white space
around. -/
inductive Spells : List Char → Nat → Prop
  | mk {before sign after : List Char} {zeros n : Nat} (hbefore : AllWhite before)
      (hsign : sign = [] ∨ sign = ['+']) (hafter : AllWhite after) :
      Spells (before ++ (sign ++ (List.replicate zeros '0' ++ digits n)) ++ after) n

theorem unsigned_iff_zeros (hn : 0 < n) :
    Unsigned text n ↔ ∃ sign zeros, (sign = [] ∨ sign = ['+']) ∧
      text = sign ++ (List.replicate zeros '0' ++ digits n) := by
  constructor
  · rintro (⟨-, hdigits⟩ | ⟨-, hdigits⟩)
    · obtain ⟨zeros, hzeros⟩ := exists_zeros hn hdigits
      exact ⟨[], zeros, Or.inl rfl, hzeros⟩
    · obtain ⟨zeros, hzeros⟩ := exists_zeros hn hdigits
      exact ⟨['+'], zeros, Or.inr rfl, congrArg ('+' :: ·) hzeros⟩
  · rintro ⟨sign, zeros, hsign, rfl⟩
    have hread := (natural?_eq_some_iff_zeros hn).2 ⟨zeros, rfl⟩
    obtain ⟨hne, hdigits, hvalue⟩ := natural?_eq_some_iff.1 hread
    rcases hsign with rfl | rfl
    · have hplain := Unsigned.plain hne hdigits
      rwa [hvalue] at hplain
    · have hsigned := Unsigned.signed hne hdigits
      rwa [hvalue] at hsigned

theorem isWhite_of_isDigit {c : Char} (h : c.isDigit = true) : isWhite c = false :=
  isWhite_of_continuesIdentifier (by simp [continuesIdentifier, Char.isAlphanum, h])

theorem Unsigned.isWhite_eq (h : Unsigned text n) : ∀ c ∈ text, isWhite c = false := by
  rcases h with ⟨-, hdigits⟩ | ⟨-, hdigits⟩
  · exact fun c hc => isWhite_of_isDigit (hdigits c hc)
  · exact List.forall_mem_cons.2 ⟨rfl, fun c hc => isWhite_of_isDigit (hdigits c hc)⟩

end Text

/-- **The texts that set a limit are the spellings of it.** -/
theorem depthText_iff_spells {text : List Char} {n : Nat} :
    DepthText text n ↔ Spells text n ∧ 0 < n ∧ n < UInt64.size := by
  refine and_congr_left fun ⟨hpos, _⟩ => ?_
  constructor
  · intro hnumber
    obtain ⟨sign, zeros, hsign, htrim⟩ := (unsigned_iff_zeros hpos).1 hnumber
    obtain ⟨before, after, hbefore, hafter, htext⟩ := exists_padding text
    rw [htext, htrim]
    exact .mk hbefore hsign hafter
  · rintro (@⟨before, sign, after, zeros, _, hbefore, hsign, hafter⟩)
    have hnumber := (unsigned_iff_zeros hpos).2 ⟨sign, zeros, hsign, rfl⟩
    rwa [trim_padded hbefore hnumber.isWhite_eq hafter]

/-! ## Loading -/

namespace Settings

variable {environment other : Environment} {settings settings' : Settings} {text : List Char}
  {n : Nat}

/-- What the limit of the settings says of its variable. -/
theorem limit_iff :
    environment.Limit settings.depthLimit ↔
      (∀ text, ¬ environment.Sets "ODATA_MAX_EXPAND_DEPTH" text) ∧ settings.maxExpandDepth = none ∨
      ∃ text n, environment.Sets "ODATA_MAX_EXPAND_DEPTH" text ∧ DepthText text n ∧
        settings.maxExpandDepth.map UInt64.toNat = some n := by
  rw [depthLimit, ← Option.map_eq_none_iff (f := UInt64.toNat)]
  generalize settings.maxExpandDepth.map UInt64.toNat = limit
  constructor
  · rintro (⟨hset, n, hn, rfl⟩ | hunset)
    · exact Or.inr ⟨_, n, hset, hn, rfl⟩
    · exact Or.inl ⟨hunset, rfl⟩
  · rintro (⟨hunset, rfl⟩ | ⟨text, n, hset, hn, rfl⟩)
    · exact .unset hunset
    · exact .given hset ⟨n, hn, rfl⟩

/-- **A text that sets a limit is loaded as this limit.** -/
theorem exists_ofEnvironment (hset : environment.Sets "ODATA_MAX_EXPAND_DEPTH" text)
    (hdepth : DepthText text n) :
    ∃ settings, ofEnvironment environment = .ok settings ∧
      settings.maxExpandDepth.map UInt64.toNat = some n := by
  cases h : ofEnvironment environment with
  | error error =>
    obtain ⟨bad, ⟨hbad, hnone⟩, -⟩ := ofEnvironment_eq_error_iff.1 h
    obtain rfl := hset.unique hbad
    exact absurd hdepth (hnone n)
  | ok settings =>
    have hlimit := (ofEnvironment_eq_ok_iff.1 h).limit
    rcases limit_iff.1 hlimit with ⟨hunset, -⟩ | ⟨other, m, hother, hm, hlimit⟩
    · exact absurd hset (hunset text)
    · obtain rfl := hset.unique hother
      obtain rfl := hm.1.unique hdepth.1
      exact ⟨settings, rfl, hlimit⟩

/-- A number that is zero or has more than 64 bits is refused. -/
theorem ofEnvironment_of_not_range (hset : environment.Sets "ODATA_MAX_EXPAND_DEPTH" text)
    (hnumber : Unsigned (trim text) n) (hrange : n = 0 ∨ UInt64.size ≤ n) :
    ofEnvironment environment = .error (.badDepth text) := by
  refine ofEnvironment_eq_error_iff.2 ⟨text, ⟨hset, ?_⟩, rfl⟩
  rintro m ⟨hm, hpos, hlt⟩
  obtain rfl := hm.unique hnumber
  omega

theorem maxExpandDepth_ne_zero (h : ofEnvironment environment = .ok settings) :
    settings.maxExpandDepth ≠ some 0 := by
  intro hzero
  have hlimit := (ofEnvironment_eq_ok_iff.1 h).limit
  rcases limit_iff.1 hlimit with ⟨-, hnone⟩ | ⟨_, n, -, hn, hlimit⟩
  · nomatch hzero.symm.trans hnone
  · rw [hzero] at hlimit
    obtain rfl : 0 = n := Option.some.inj hlimit
    exact Nat.lt_irrefl 0 hn.2.1

theorem logLevel_eq_of_eq (h : ofEnvironment environment = .ok settings)
    (h' : ofEnvironment other = .ok settings')
    (heq : environment "LOG_LEVEL" = other "LOG_LEVEL") :
    settings.logLevel = settings'.logLevel := by
  have hlevel := Environment.logLevel_iff.1 (ofEnvironment_eq_ok_iff.1 h).logLevel
  have hlevel' := Environment.logLevel_iff.1 (ofEnvironment_eq_ok_iff.1 h').logLevel
  rw [hlevel, hlevel', Environment.text?_congr heq]

theorem pretty_eq_of_eq (h : ofEnvironment environment = .ok settings)
    (h' : ofEnvironment other = .ok settings')
    (heq : environment "ODATA_PRETTY" = other "ODATA_PRETTY") :
    settings.pretty = settings'.pretty := by
  have hpretty := Environment.pretty_iff.1 (ofEnvironment_eq_ok_iff.1 h).pretty
  have hpretty' := Environment.pretty_iff.1 (ofEnvironment_eq_ok_iff.1 h').pretty
  rw [hpretty, hpretty', Environment.text?_congr heq]

/-- **How an environment is loaded.** It is refused just when the depth that is set is no positive
number of 64 bits, and then the text is quoted as it was given. Otherwise the limit is that number,
and there is none if none is set; it is never zero, and the other settings depend on nothing but
their own variables. No number is cut down to 64 bits: a greater one is refused, and every spelling
of the others is loaded as the number, which is then the limit for reading clauses. -/
theorem ofEnvironment_exact (environment : Environment) :
    (∀ error, ofEnvironment environment = .error error ↔
      ∃ text, environment.Sets "ODATA_MAX_EXPAND_DEPTH" text ∧
        (∀ n, ¬ (Unsigned (trim text) n ∧ 0 < n ∧ n < UInt64.size)) ∧
        error = .badDepth text ∧ error.message =
          "configuration error: ODATA_MAX_EXPAND_DEPTH must be a positive integer, got '" ++
            String.ofList text ++ "'") ∧
    (∀ settings, ofEnvironment environment = .ok settings ↔
      environment.LogLevel settings.logLevel ∧ environment.Pretty settings.pretty ∧
        ((∀ text, ¬ environment.Sets "ODATA_MAX_EXPAND_DEPTH" text) ∧
            settings.maxExpandDepth = none ∨
          ∃ text n, environment.Sets "ODATA_MAX_EXPAND_DEPTH" text ∧
            (Unsigned (trim text) n ∧ 0 < n ∧ n < UInt64.size) ∧
            settings.maxExpandDepth.map UInt64.toNat = some n)) ∧
    (∀ settings, ofEnvironment environment = .ok settings →
      settings.maxExpandDepth ≠ some 0 ∧
        ∀ other settings', ofEnvironment other = .ok settings' →
          (environment "LOG_LEVEL" = other "LOG_LEVEL" →
            settings.logLevel = settings'.logLevel) ∧
          (environment "ODATA_PRETTY" = other "ODATA_PRETTY" →
            settings.pretty = settings'.pretty)) ∧
    ∀ text n, environment.Sets "ODATA_MAX_EXPAND_DEPTH" text →
      (Unsigned (trim text) n → n = 0 ∨ UInt64.size ≤ n →
        ofEnvironment environment = .error (.badDepth text)) ∧
      (Spells text n → 0 < n → n < UInt64.size →
        ∃ settings, ofEnvironment environment = .ok settings ∧
          settings.maxExpandDepth.map UInt64.toNat = some n ∧ settings.depthLimit = some n) := by
  refine ⟨fun error => ?_, fun settings => ?_, fun settings h => ?_, fun text n hset =>
    ⟨ofEnvironment_of_not_range hset, fun hspells hpos hlt => ?_⟩⟩
  · rw [ofEnvironment_eq_error_iff]
    constructor
    · rintro ⟨text, ⟨hset, hnone⟩, rfl⟩
      exact ⟨text, hset, hnone, rfl, rfl⟩
    · rintro ⟨text, hset, hnone, heq, -⟩
      exact ⟨text, ⟨hset, hnone⟩, heq⟩
  · rw [ofEnvironment_eq_ok_iff]
    constructor
    · exact fun hset => ⟨hset.logLevel, hset.pretty, limit_iff.1 hset.limit⟩
    · exact fun ⟨hlevel, hpretty, hlimit⟩ => ⟨hlevel, hpretty, limit_iff.2 hlimit⟩
  · exact ⟨maxExpandDepth_ne_zero h, fun other settings' h' =>
      ⟨logLevel_eq_of_eq h h', pretty_eq_of_eq h h'⟩⟩
  · obtain ⟨settings, hload, hlimit⟩ :=
      exists_ofEnvironment hset (depthText_iff_spells.2 ⟨hspells, hpos, hlt⟩)
    exact ⟨settings, hload, hlimit, hlimit⟩

/-- The greatest number of 64 bits, padded and with a zero more than it needs; the next number is
refused. -/
theorem ofEnvironment_exact_greatest :
    let sets : List Char → Environment := fun text name =>
      if name = "ODATA_MAX_EXPAND_DEPTH" then some (encode text) else none
    (∃ settings, ofEnvironment (sets " +018446744073709551615\u00A0".toList) = .ok settings ∧
        settings.depthLimit = some 18446744073709551615) ∧
      ofEnvironment (sets "18446744073709551616".toList) =
        .error (.badDepth "18446744073709551616".toList) := by
  intro sets
  have hsets : ∀ text, (sets text).Sets "ODATA_MAX_EXPAND_DEPTH" text := fun text => if_pos rfl
  have htext : " +018446744073709551615\u00A0".toList =
      [' '] ++ (['+'] ++ (List.replicate 1 '0' ++ digits 18446744073709551615)) ++ ['\u00A0'] := by
    decide +kernel
  have hspells : Spells " +018446744073709551615\u00A0".toList 18446744073709551615 := by
    rw [htext]
    exact .mk (by decide) (Or.inr rfl) (by decide)
  have hnumber : Unsigned (trim "18446744073709551616".toList) 18446744073709551616 :=
    unsigned?_eq_some_iff.1 (by decide +kernel)
  obtain ⟨-, -, -, hloads⟩ := ofEnvironment_exact (sets " +018446744073709551615\u00A0".toList)
  obtain ⟨-, -, -, hrefused⟩ := ofEnvironment_exact (sets "18446744073709551616".toList)
  obtain ⟨settings, hload, -, hlimit⟩ :=
    (hloads _ _ (hsets _)).2 hspells (by decide) (by decide)
  exact ⟨⟨settings, hload, hlimit⟩, (hrefused _ _ (hsets _)).1 hnumber (Or.inr (by decide))⟩

end Settings

end OData
