import OData.Proofs.Outcome
import OData.Proofs.Text.Utf8
import OData.Settings

/-!
# What an environment sets

The settings of an environment, said variable by variable and without the reader. Each variable
decides one setting, and a variable that is unset, or holds bytes that are no UTF-8, leaves it at
its default. Only a depth limit can be refused.

## Main statements

* `parseDepth_eq_ok_iff` — the texts that set a depth limit
* `Settings.ofEnvironment_eq_ok_iff` — the settings, variable by variable
* `Settings.ofEnvironment_eq_error_iff` — when there are none
-/

namespace OData

open Text

/-! ## Numbers -/

namespace Text

/-- The number that one or more decimal digits write, with or without one `+` in front of them. -/
inductive Unsigned : List Char → Nat → Prop
  | plain {digits : List Char} (hne : digits ≠ []) (hdigits : ∀ c ∈ digits, c.isDigit = true) :
      Unsigned digits (Nat.ofDigitChars 10 digits 0)
  | signed {digits : List Char} (hne : digits ≠ []) (hdigits : ∀ c ∈ digits, c.isDigit = true) :
      Unsigned ('+' :: digits) (Nat.ofDigitChars 10 digits 0)

theorem natural?_eq_some_iff {text : List Char} {n : Nat} :
    natural? text = some n ↔
      text ≠ [] ∧ (∀ c ∈ text, c.isDigit = true) ∧ Nat.ofDigitChars 10 text 0 = n := by
  simp [natural?, and_assoc]

/-- **The texts that are read as a number.** -/
theorem unsigned?_eq_some_iff {text : List Char} {n : Nat} :
    unsigned? text = some n ↔ Unsigned text n := by
  unfold unsigned?
  constructor
  · intro h
    split at h
    · rename_i hplus
      obtain ⟨digits, rfl⟩ : ∃ digits, text = '+' :: digits := List.head?_eq_some_iff.1 hplus
      obtain ⟨hne, hdigits, rfl⟩ := natural?_eq_some_iff.1 h
      exact .signed hne hdigits
    · obtain ⟨hne, hdigits, rfl⟩ := natural?_eq_some_iff.1 h
      exact .plain hne hdigits
  · rintro (⟨hne, hdigits⟩ | ⟨hne, hdigits⟩)
    · have hplus : text.head? ≠ some '+' := by
        intro hplus
        nomatch hdigits '+' (List.mem_of_mem_head? hplus)
      rw [if_neg hplus]
      exact natural?_eq_some_iff.2 ⟨hne, hdigits, rfl⟩
    · rw [List.head?_cons, if_pos rfl]
      exact natural?_eq_some_iff.2 ⟨hne, hdigits, rfl⟩

theorem Unsigned.unique {text : List Char} {m n : Nat} (hm : Unsigned text m)
    (hn : Unsigned text n) : m = n := by
  rw [← unsigned?_eq_some_iff] at hm hn
  exact Option.some.inj (hm.symm.trans hn)

end Text

/-! ## Variables -/

namespace Environment

/-- The variable is set, and holds the text as UTF-8. -/
def Sets (environment : Environment) (name : String) (text : List Char) : Prop :=
  environment name = some (encode text)

theorem text?_eq_some_iff {environment : Environment} {name : String} {text : List Char} :
    environment.text? name = some text ↔ environment.Sets name text := by
  simp only [text?, Option.bind_eq_some_iff, decode?_eq_some_iff]
  constructor
  · rintro ⟨bytes, hbytes, rfl⟩
    exact hbytes
  · exact fun h => ⟨_, h, rfl⟩

theorem text?_eq_none_iff {environment : Environment} {name : String} :
    environment.text? name = none ↔ ∀ text, ¬ environment.Sets name text := by
  simp only [Option.eq_none_iff_forall_ne_some, ne_eq, text?_eq_some_iff]

theorem Sets.unique {environment : Environment} {name : String} {text other : List Char}
    (h : environment.Sets name text) (hother : environment.Sets name other) : text = other := by
  rw [← text?_eq_some_iff] at h hother
  exact Option.some.inj (h.symm.trans hother)

/-- Nothing but the variable itself decides what its text is. -/
theorem text?_congr {environment other : Environment} {name : String}
    (h : environment name = other name) : environment.text? name = other.text? name := by
  rw [text?, text?, h]

variable {α : Type}

/-- The value that a variable decides: one that its text stands for, or the default if it is unset
or no UTF-8. -/
inductive Decides (environment : Environment) (name : String) (standsFor : List Char → α → Prop)
    (default : α) : α → Prop
  | given {text : List Char} {value : α} (hset : environment.Sets name text)
      (hvalue : standsFor text value) : Decides environment name standsFor default value
  | unset (hunset : ∀ text, ¬ environment.Sets name text) :
      Decides environment name standsFor default default

theorem decides_iff {environment : Environment} {name : String} {standsFor : List Char → α → Prop}
    {default value : α} :
    environment.Decides name standsFor default value ↔
      match environment.text? name with
      | some text => standsFor text value
      | none => value = default := by
  cases htext : environment.text? name with
  | none =>
    have hunset := text?_eq_none_iff.1 htext
    constructor
    · rintro (⟨hset, -⟩ | -)
      · exact absurd hset (hunset _)
      · rfl
    · rintro rfl
      exact .unset hunset
  | some text =>
    have hset := text?_eq_some_iff.1 htext
    constructor
    · rintro (⟨hother, hvalue⟩ | hunset)
      · rw [← text?_eq_some_iff, htext, Option.some.injEq] at hother
        exact hother ▸ hvalue
      · exact absurd hset (hunset _)
    · exact .given hset

end Environment

/-! ## Settings -/

/-- A text that sets a depth limit: white space aside, a positive number of 64 bits. -/
def DepthText (text : List Char) (depth : Nat) : Prop :=
  Unsigned (trim text) depth ∧ 0 < depth ∧ depth < UInt64.size

namespace Environment

/-- The filter of the log. -/
def LogLevel (environment : Environment) (level : String) : Prop :=
  environment.Decides "LOG_LEVEL" (fun text level => level = String.ofList text) "info" level

/-- Whether the output is laid out over several lines. -/
def Pretty (environment : Environment) (pretty : Bool) : Prop :=
  environment.Decides "ODATA_PRETTY"
    (fun text pretty => pretty = true ↔ String.ofList text ∈ Settings.yesTexts) true pretty

/-- The greatest depth of a group, if there is a limit. -/
def Limit (environment : Environment) (limit : DepthLimit) : Prop :=
  environment.Decides "ODATA_MAX_EXPAND_DEPTH"
    (fun text limit => ∃ depth, DepthText text depth ∧ limit = some depth) none limit

/-- The text that is set as the depth limit is none. -/
def BadDepth (environment : Environment) (text : List Char) : Prop :=
  environment.Sets "ODATA_MAX_EXPAND_DEPTH" text ∧ ∀ depth, ¬ DepthText text depth

end Environment

namespace Environment

variable {environment : Environment}

theorem logLevel_iff {level : String} :
    environment.LogLevel level ↔
      level = ((environment.text? "LOG_LEVEL").map String.ofList).getD "info" := by
  rw [LogLevel, decides_iff]
  cases environment.text? "LOG_LEVEL" <;> rfl

theorem pretty_iff {pretty : Bool} :
    environment.Pretty pretty ↔ pretty = ((environment.text? "ODATA_PRETTY").map fun text =>
      Settings.yesTexts.contains (String.ofList text)).getD true := by
  rw [Pretty, decides_iff]
  cases environment.text? "ODATA_PRETTY" with
  | none => rfl
  | some text =>
    show (pretty = true ↔ String.ofList text ∈ Settings.yesTexts) ↔
      pretty = Settings.yesTexts.contains (String.ofList text)
    rw [← List.contains_iff_mem]
    exact Bool.eq_iff_iff.symm

end Environment

namespace Settings

/-- **The texts that set a depth limit.** -/
theorem parseDepth_eq_ok_iff {text : List Char} {depth : UInt64} :
    parseDepth text = .ok depth ↔ DepthText text depth.toNat := by
  unfold parseDepth
  constructor
  · intro h
    split at h
    · nomatch h
    · rename_i n hn
      split at h
      · rename_i hrange
        obtain rfl := Except.ok.inj h
        rw [UInt64.toNat_ofNat_of_lt' hrange.2]
        exact ⟨unsigned?_eq_some_iff.1 hn, hrange⟩
      · nomatch h
  · rintro ⟨hnumber, hrange⟩
    rw [unsigned?_eq_some_iff.2 hnumber]
    dsimp only
    rw [if_pos hrange, UInt64.ofNat_toNat]

/-- Every other text is refused, and quoted as it was given. -/
theorem parseDepth_eq_error_iff {text : List Char} {error : SettingError} :
    parseDepth text = .error error ↔
      (∀ depth, ¬ DepthText text depth) ∧ error = .badDepth text := by
  have hquoted : ∀ {error}, parseDepth text = .error error → error = .badDepth text := by
    intro error h
    unfold parseDepth at h
    split at h
    · exact (Except.error.inj h).symm
    · split at h
      · nomatch h
      · exact (Except.error.inj h).symm
  constructor
  · intro h
    refine ⟨fun depth hdepth => ?_, hquoted h⟩
    have hword : (UInt64.ofNat depth).toNat = depth := UInt64.toNat_ofNat_of_lt' hdepth.2.2
    rw [← hword, ← parseDepth_eq_ok_iff, h] at hdepth
    nomatch hdepth
  · rintro ⟨hnone, rfl⟩
    cases h : parseDepth text with
    | ok depth => exact absurd (parseDepth_eq_ok_iff.1 h) (hnone _)
    | error error => rw [hquoted h]

/-- The environment sets each of the settings. -/
structure SetBy (environment : Environment) (settings : Settings) : Prop where
  logLevel : environment.LogLevel settings.logLevel
  pretty : environment.Pretty settings.pretty
  limit : environment.Limit settings.depthLimit

variable {environment : Environment}

/-- **The settings are what the variables say.** -/
theorem ofEnvironment_eq_ok_iff {settings : Settings} :
    ofEnvironment environment = .ok settings ↔ SetBy environment settings := by
  unfold ofEnvironment
  dsimp only
  constructor
  · intro h
    split at h
    · rename_i hunset
      obtain rfl := Except.ok.inj h
      exact ⟨Environment.logLevel_iff.2 rfl, Environment.pretty_iff.2 rfl,
        .unset (Environment.text?_eq_none_iff.1 hunset)⟩
    · rename_i text htext
      obtain ⟨depth, hdepth, rfl⟩ := map_eq_ok_iff.1 h
      exact ⟨Environment.logLevel_iff.2 rfl, Environment.pretty_iff.2 rfl,
        .given (Environment.text?_eq_some_iff.1 htext)
          ⟨depth.toNat, parseDepth_eq_ok_iff.1 hdepth, rfl⟩⟩
  · rintro ⟨hlevel, hpretty, hlimit⟩
    obtain ⟨level, pretty, limit⟩ := settings
    obtain rfl := Environment.logLevel_iff.1 hlevel
    obtain rfl := Environment.pretty_iff.1 hpretty
    have hlimit := Environment.decides_iff.1 hlimit
    split
    · rename_i hunset
      rw [hunset] at hlimit
      cases limit with
      | none => rfl
      | some depth => nomatch hlimit
    · rename_i text htext
      rw [htext] at hlimit
      obtain ⟨n, hn, hlimit⟩ := hlimit
      cases limit with
      | none => nomatch hlimit
      | some depth =>
        obtain rfl : depth.toNat = n := Option.some.inj hlimit
        rw [parseDepth_eq_ok_iff.2 hn]
        rfl

/-- **There are none just when the depth limit that is set is no such limit.** -/
theorem ofEnvironment_eq_error_iff {error : SettingError} :
    ofEnvironment environment = .error error ↔
      ∃ text, environment.BadDepth text ∧ error = .badDepth text := by
  unfold ofEnvironment
  dsimp only
  constructor
  · intro h
    split at h
    · nomatch h
    · rename_i text htext
      obtain ⟨hbad, rfl⟩ := parseDepth_eq_error_iff.1 (map_eq_error_iff.1 h)
      exact ⟨text, ⟨Environment.text?_eq_some_iff.1 htext, hbad⟩, rfl⟩
  · rintro ⟨text, ⟨hset, hbad⟩, rfl⟩
    rw [Environment.text?_eq_some_iff.2 hset]
    exact map_eq_error_iff.2 (parseDepth_eq_error_iff.2 ⟨hbad, rfl⟩)

end Settings

end OData
