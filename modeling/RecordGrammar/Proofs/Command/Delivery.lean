import Mathlib
import RecordGrammar.Command.Run
import RecordGrammar.Proofs.Json.Reader
import RecordGrammar.Proofs.Reporting

/-!
# What a command leaves behind

A command makes a text as the library does and then delivers it. `Makes ws x made`: with `made`, the steps `x` come to its value
if the texts that they show can be shown; else, and without it, they end early. In any case they leave the files as they are.
All steps up to the delivery do so. `run_output`: with a place to write to, a command ends well and leaves the text there, with
a line feed behind it, if the library makes one that can be encoded, as must be all that is shown. What cannot be made leaves
nothing behind; a text that cannot be encoded leaves the file empty (`run_empties_file`).
-/

namespace RecordGrammar

theorem Halves.isSome_error? (h : Halves) (s : String) : (h.error? s).isSome = h.isIn s := by
  simp [Halves.error?, Halves.isIn]

namespace Command

section Told
variable {α β : Type}

/-- A value, if there is one, that is reached without a word. -/
def silent (r : Option α) : Option (List String × α) := r.map fun a => ([], a)

/-- A value, if there is one, that is reached by way of another, together with the texts on both ways. -/
def byWay (made : Option (List String × α)) (f : α → Option (List String × β)) : Option (List String × β) := do
  let (said, a) ← made
  let (more, b) ← f a
  return (said ++ more, b)

/-- The value that is reached if every text on the way can be shown. -/
def reached (ws : Workspace) (made : Option (List String × α)) : Option α :=
  (made.filter fun m => !m.1.any ws.halves.isIn).map (·.2)

/-- The steps reach the value, or end early without one, whatever has been done before, and leave the files as they are. -/
def Makes (ws : Workspace) (x : Running α) (made : Option (List String × α)) : Prop :=
  ∀ s, (x.run.run s).1.toOption = reached ws made ∧ (x.run.run s).2.written = s.written

end Told

section Steps
variable {α β ε : Type} {ws : Workspace} {x : Running α} {f : α → Running β}

theorem reached_none : reached ws (none : Option (List String × α)) = none := rfl

theorem reached_some (said : List String) (a : α) :
    reached ws (some (said, a)) = if said.any ws.halves.isIn then none else some a := by
  cases h : said.any ws.halves.isIn <;> simp [reached, Option.filter, h, -List.any_eq_true, -List.any_eq_false]

theorem reached_eq_some_iff {made : Option (List String × α)} {a : α} :
    reached ws made = some a ↔ ∃ said, made = some (said, a) ∧ ∀ t ∈ said, ws.halves.isIn t = false := by
  simp [reached, Option.filter_eq_some_iff]

theorem reached_map (made : Option (List String × α)) (g : α → β) :
    reached ws (made.map fun m => (m.1, g m.2)) = (reached ws made).map g := by
  rcases made with _ | ⟨said, a⟩
  · rfl
  · cases h : said.any ws.halves.isIn <;> simp [reached_some, h, -List.any_eq_true, -List.any_eq_false]

theorem reached_byWay (made : Option (List String × α)) (g : α → Option (List String × β)) :
    reached ws (byWay made g) = (reached ws made).bind fun a => reached ws (g a) := by
  rcases made with _ | ⟨said, a⟩
  · rfl
  rcases hg : g a with _ | ⟨more, b⟩
  · cases h : said.any ws.halves.isIn <;>
      simp [byWay, reached_none, reached_some, hg, h, -List.any_eq_true, -List.any_eq_false]
  · cases h : said.any ws.halves.isIn <;> simp [byWay, reached_some, hg, h, -List.any_eq_true, -List.any_eq_false]

theorem Makes.bind {made : Option (List String × α)} {g : α → Option (List String × β)} (hx : Makes ws x made)
    (hf : ∀ a, Makes ws (f a) (g a)) : Makes ws (x >>= f) (byWay made g) := by
  intro s
  obtain ⟨hr, hw⟩ := hx s
  rw [Reporting.run_bind, reached_byWay, ← hr]
  revert hw
  rcases x.run.run s with ⟨_ | a, t⟩ <;> intro hw
  · exact ⟨rfl, hw⟩
  · exact ⟨(hf a t).1, (hf a t).2.trans hw⟩

theorem Makes.congr {made made' : Option (List String × α)} (h : Makes ws x made) (e : made = made') : Makes ws x made' := e ▸ h

theorem makes_attempt (g : ε → CommandError) (r : Except ε α) : Makes ws (attempt g r) (silent r.toOption) := by
  intro s
  cases r <;> exact ⟨rfl, rfl⟩

theorem makes_throw (stop : Stop) : Makes ws (throw stop : Running α) none := fun _ => ⟨rfl, rfl⟩

theorem makes_pure (a : α) : Makes ws (pure a) (some ([], a)) := fun _ => ⟨rfl, rfl⟩

theorem makes_display (lines : List String) : Makes ws (display lines) (some ([], ())) := fun _ => ⟨rfl, rfl⟩

theorem makes_say (layout : String → List String) (text : String) : Makes ws (say ws layout text) (some ([text], ())) := by
  intro s
  unfold say
  rw [reached_some]
  cases h : ws.halves.isIn text <;> simp only [List.any_cons, h] <;> exact ⟨rfl, rfl⟩

end Steps

/-- The messages of the notices that are shown. -/
def messages (verbose : Bool) (ns : List Notice) : List String :=
  (ns.filter fun n => verbose || n.level = .warning).map Notice.message

/-- The one source that the options name, if it can be loaded, and what is said of it. -/
def Files.made (ws : Workspace) (family : Family) (files : Files) : Option (List String × Source) :=
  match files.schema, files.model with
  | some path, none => (loadSchemaFile ws path).toOption.map fun v => (["Loaded schema from: " ++ plainPath path], .document v)
  | none, some reference => (loadModel family reference).toOption.map fun source => (["Loaded model: " ++ reference], source)
  | _, _ => none

def Source.made (verbose : Bool) (source : Source) : Option (List String × Shape) :=
  source.shape.outcome.1.toOption.map fun shape => (messages verbose source.shape.outcome.2, shape)

def GrammarRequest.made (ws : Workspace) (family : Family) (verbose : Bool) (r : GrammarRequest) :
    Option (List String × GrammarSettings × String) := do
  let settings ← r.options.check.toOption
  let (loaded, source) ← r.files.made ws family
  let (read, shape) ← Source.made verbose source
  let table ← (shape.grammar settings).1.toOption
  some (loaded ++ read ++ messages verbose (shape.grammar settings).2 ++ ["Compiled grammar for: " ++ shape.displayName],
    settings, table.render)

def SampleRequest.made (ws : Workspace) (family : Family) (verbose : Bool) (r : SampleRequest) :
    Option (List String × SampleSettings × String) := do
  let settings ← r.settings.toOption
  let (loaded, source) ← r.files.made ws family
  let (read, shape) ← Source.made verbose source
  let sample ← (shape.sample settings).toOption
  some (loaded ++ read, settings, sample)

section Making
variable {ws : Workspace} {family : Family} {verbose : Bool}

theorem makes_sayNotices (ns : List Notice) : Makes ws (sayNotices ws verbose ns) (some (messages verbose ns, ())) := by
  unfold sayNotices messages
  induction ns.filter fun n => verbose || n.level = .warning with
  | nil => exact makes_pure ()
  | cons n ns ih => exact (makes_say _ n.message).bind fun _ => ih

theorem makes_loadSource (files : Files) : Makes ws (loadSource ws family files) (files.made ws family) := by
  rcases files with ⟨_ | path, _ | reference, output⟩
  · exact makes_throw _
  · refine Makes.congr ((makes_attempt .load (loadModel family reference)).bind fun source =>
      (makes_say Display.success ("Loaded model: " ++ reference)).bind fun _ => makes_pure source) ?_
    simp only [Files.made]
    cases loadModel family reference <;> rfl
  · refine Makes.congr ((makes_attempt .load (loadSchemaFile ws path)).bind fun v =>
      (makes_say Display.success ("Loaded schema from: " ++ plainPath path)).bind fun _ => makes_pure (Source.document v)) ?_
    simp only [Files.made]
    cases loadSchemaFile ws path <;> rfl
  · exact makes_throw _

theorem makes_readSource (source : Source) : Makes ws (readSource ws verbose source) (Source.made verbose source) := by
  refine Makes.congr ((makes_attempt .source source.provider).bind fun provider =>
    (makes_display (Display.info ("Provider: " ++ provider.name))).bind fun _ =>
      (makes_sayNotices source.shape.outcome.2).bind fun _ => makes_attempt .source source.shape.outcome.1) ?_
  cases hp : source.provider with
  | error e =>
    -- without a provider nothing is read either
    have hs : source.shape = throw e := by rw [Source.shape, hp]
    rw [Source.made, hs]
    rfl
  | ok p => cases hs : source.shape.outcome.1 <;> simp [Source.made, byWay, silent, hs, Except.toOption]

theorem makes_makeGrammar (r : GrammarRequest) (h : r.showSchema = false) :
    Makes ws (makeGrammar ws family verbose r) (r.made ws family verbose) := by
  unfold makeGrammar
  simp only [h, Bool.false_eq_true, ↓reduceIte]
  refine Makes.congr ((makes_attempt .settings r.options.check).bind fun settings =>
    (makes_display _).bind fun _ => (makes_loadSource r.files).bind fun source =>
      (makes_readSource source).bind fun shape => (makes_sayNotices (shape.grammar settings).2).bind fun _ =>
        (makes_attempt .grammar (shape.grammar settings).1).bind fun table =>
          (makes_say _ ("Compiled grammar for: " ++ shape.displayName)).bind fun _ =>
            makes_pure (settings, table.render)) ?_
  -- both sides are the same steps in turn, only grouped in different ways
  simp [GrammarRequest.made, byWay, silent, Option.bind_map, Option.bind_assoc]

theorem makes_makeSample (r : SampleRequest) : Makes ws (makeSample ws family verbose r) (r.made ws family verbose) := by
  unfold makeSample
  refine Makes.congr ((makes_attempt id r.settings).bind fun settings => (makes_display _).bind fun _ =>
    (makes_loadSource r.files).bind fun source => (makes_readSource source).bind fun shape =>
      (makes_attempt .sample (shape.sample settings)).bind fun sample => makes_pure (settings, sample)) ?_
  simp [SampleRequest.made, byWay, silent, Option.bind_map, Option.bind_assoc]

end Making

/-- A sample document, behind the sentence that tells how to use it if that is asked for. -/
def SampleRequest.textOf (r : SampleRequest) (made : SampleSettings × String) : String :=
  if r.instructions then Sample.instructions made.1.delimiters ++ "\n\n" ++ made.2 else made.2

/-- The text that a command is to deliver, as the library makes it, and what the command says before. -/
def Invocation.made (ws : Workspace) (family : Family) : Invocation → Option (List String × String)
  | .grammar verbose r => (r.made ws family verbose).map fun (said, made) => (said, made.2)
  | .sample verbose r => (r.made ws family verbose).map fun (said, made) => (said, r.textOf made)
  | .version | .help => none

def Invocation.output? : Invocation → Option String
  | .grammar _ r => r.files.output
  | .sample _ r => r.files.output
  | .version | .help => none

def Invocation.showsSchema : Invocation → Bool
  | .grammar _ r => r.showSchema
  | _ => false

/-- What is left at a place to which a text is delivered: nothing of it, if it cannot be encoded. -/
def leftAt (ws : Workspace) (place : Location) (text : String) : Written :=
  (place, if ws.halves.isIn text then "" else text ++ "\n")

def savedTo (path : String) : String := "Saved to: " ++ plainPath path

/-- The steps leave the text at the place, and end well if it can be encoded and the path be shown. -/
def Delivers (ws : Workspace) (path : String) (place : Location) (x : Running Unit) (text : String) : Prop :=
  ∀ s, (x.run.run s).1.toOption.isSome = (!ws.halves.isIn text && !ws.halves.isIn (savedTo path)) ∧
    (x.run.run s).2.written = some (leftAt ws place text)

theorem all_isBlank_blanks (n : Nat) : (String.ofList (List.replicate n ' ')).toList.all Text.isBlank = true := by
  have h : Text.isBlank ' ' = true := rfl
  simp [h]

theorem SampleRequest.settings_of_nonneg (r : SampleRequest) (h : 0 ≤ r.indent) :
    ∃ settings, r.settings = .ok settings ∧ settings.delimiters = {} := by
  have hd : Delimiters.ofStrings "⟨" "⟩" = .ok {} := rfl
  have hc : ∃ settings, SampleOptions.check
      { prettyPrint := !r.compact, indent := String.ofList (List.replicate r.indent.toNat ' ') } = .ok settings ∧
      settings.delimiters = {} := by
    unfold SampleOptions.check
    rw [hd]
    simp only [all_isBlank_blanks, ↓reduceDIte]
    exact ⟨_, rfl, rfl⟩
  obtain ⟨settings, hs, hdel⟩ := hc
  refine ⟨settings, ?_, hdel⟩
  rw [SampleRequest.settings, if_neg (not_lt.mpr h)]
  simp only [hs]

theorem SampleRequest.made_of {ws : Workspace} {family : Family} {verbose : Bool} {r : SampleRequest} {path sample : String}
    {v : Json} {settings : SampleSettings} {shape : Shape} (hc : r.settings = .ok settings) (hp : r.files.schema = some path)
    (hm : r.files.model = none) (hl : loadSchemaFile ws path = .ok v)
    (hs : (Source.document v).shape.outcome = (.ok shape, [])) (ht : shape.sample settings = .ok sample) :
    r.made ws family verbose = some (["Loaded schema from: " ++ plainPath path], settings, sample) := by
  simp [SampleRequest.made, Files.made, Source.made, hc, hp, hm, hl, hs, ht, Except.toOption, messages]

/-- The command ends well if there is a text to deliver and all that is told and written can be encoded; else it fails. It
leaves what the delivery leaves, unless it fails before. -/
structure Delivered (ws : Workspace) (path : String) (place : Location) (told : Option (List String × String)) (o : Outcome) :
    Prop where
  ended : o.exitCode = 0 ↔
    ∃ said text, told = some (said, text) ∧ ∀ t ∈ said ++ [text, savedTo path], ws.halves.isIn t = false
  exitCode_le : o.exitCode ≤ 1
  written : o.written = (reached ws told).map (leftAt ws place)

section Delivery
variable {α : Type} {ws : Workspace} {family : Family} {verbose : Bool} {path text : String} {place : Location}

theorem delivers_deliver (hplace : ws.write path = .ok place) (present : Running Unit) :
    Delivers ws path place (deliver ws (some path) text present) text := by
  intro s
  have he := ws.halves.isSome_error? text
  simp only [deliver, hplace, attempt]
  cases h : ws.halves.error? text with
  | some e =>
    rw [h] at he
    rw [leftAt, ← he]
    exact ⟨rfl, rfl⟩
  | none =>
    rw [h] at he
    rw [leftAt, ← he]
    unfold say savedTo
    cases ws.halves.isIn ("Saved to: " ++ plainPath path) <;> exact ⟨rfl, rfl⟩

theorem Delivers.after {x : Running Unit} {f : Unit → Running Unit} (hx : Makes ws x (some ([], ())))
    (hf : Delivers ws path place (f ()) text) : Delivers ws path place (x >>= f) text := by
  intro s
  obtain ⟨hr, -⟩ := hx s
  rw [Reporting.run_bind]
  revert hr
  rcases x.run.run s with ⟨_ | _, t⟩ <;> intro hr
  · cases hr
  · exact hf t

theorem Delivers.before {x : Running Unit} {f : Unit → Running Unit} (hx : Delivers ws path place x text)
    (hf : Makes ws (f ()) (some ([], ()))) : Delivers ws path place (x >>= f) text := by
  intro s
  obtain ⟨hr, hw⟩ := hx s
  rw [Reporting.run_bind]
  revert hr hw
  rcases x.run.run s with ⟨_ | _, t⟩ <;> intro hr hw
  · exact ⟨hr, hw⟩
  · refine ⟨?_, (hf t).2.trans hw⟩
    rw [(hf t).1]
    exact hr

theorem run_delivery {x : Running α} {made : Option (List String × α)} {f : α → Running Unit} {textOf : α → String}
    (hx : Makes ws x made) (hf : ∀ a, Delivers ws path place (f a) (textOf a)) (s : Session) (hs : s.written = none) :
    ((x >>= f).run.run s).1.toOption.isSome =
      ((reached ws made).map textOf).any (fun text => !ws.halves.isIn text && !ws.halves.isIn (savedTo path)) ∧
    ((x >>= f).run.run s).2.written = ((reached ws made).map textOf).map (leftAt ws place) := by
  obtain ⟨hr, hw⟩ := hx s
  rw [Reporting.run_bind, ← hr]
  revert hw
  rcases x.run.run s with ⟨stop | a, t⟩ <;> intro hw
  -- what ends early has written nothing, so that only the delivery is left to write
  · exact ⟨rfl, hw.trans hs⟩
  · exact hf a t

theorem exitCode_outcome (x : Running Unit) :
    (Running.outcome ws x).exitCode = if (x.run.run {}).1.toOption.isSome then 0 else 1 := by
  unfold Running.outcome
  rcases x.run.run {} with ⟨_ | _, s⟩ <;> rfl

theorem written_outcome (x : Running Unit) : (Running.outcome ws x).written = (x.run.run {}).2.written := by
  unfold Running.outcome
  rcases x.run.run {} with ⟨_ | _, s⟩ <;> rfl

theorem any_reached_iff {told : Option (List String × String)} :
    ((reached ws told).any fun text => !ws.halves.isIn text && !ws.halves.isIn (savedTo path)) = true ↔
      ∃ said text, told = some (said, text) ∧ ∀ t ∈ said ++ [text, savedTo path], ws.halves.isIn t = false := by
  rw [Option.any_eq_true]
  constructor
  · rintro ⟨text, hr, ht⟩
    obtain ⟨said, hm, hall⟩ := reached_eq_some_iff.mp hr
    simp only [Bool.and_eq_true, Bool.not_eq_true'] at ht
    refine ⟨said, text, hm, ?_⟩
    simpa [or_imp, forall_and, ht] using hall
  · rintro ⟨said, text, hm, hall⟩
    refine ⟨text, reached_eq_some_iff.mpr ⟨said, hm, fun t ht => hall t (List.mem_append_left _ ht)⟩, ?_⟩
    simp [hall text, hall (savedTo path)]

theorem outcome_delivery {x : Running α} {made : Option (List String × α)} {f : α → Running Unit} {textOf : α → String}
    {told : Option (List String × String)} (hx : Makes ws x made) (hf : ∀ a, Delivers ws path place (f a) (textOf a))
    (htold : told = made.map fun m => (m.1, textOf m.2)) :
    Delivered ws path place told (Running.outcome ws (x >>= f)) := by
  obtain ⟨hended, hwritten⟩ := run_delivery hx hf {} rfl
  rw [← reached_map, ← htold] at hended hwritten
  constructor
  · rw [exitCode_outcome, hended, ← any_reached_iff]
    cases (reached ws told).any fun text => !ws.halves.isIn text && !ws.halves.isIn (savedTo path) <;> simp
  · rw [exitCode_outcome]
    split <;> simp
  · rw [written_outcome, hwritten]

theorem delivered_grammar {r : GrammarRequest} (hshow : r.showSchema = false) (hout : r.files.output = some path)
    (hplace : ws.write path = .ok place) :
    Delivered ws path place ((Invocation.grammar verbose r).made ws family)
      ((runGrammar ws family verbose r).outcome ws) := by
  refine outcome_delivery (makes_makeGrammar r hshow) (fun a => ?_) rfl
  simp only [hout]
  exact Delivers.after (makes_display _) ((delivers_deliver hplace _).before (makes_display _))

theorem delivered_sample {r : SampleRequest} (hout : r.files.output = some path) (hplace : ws.write path = .ok place) :
    Delivered ws path place ((Invocation.sample verbose r).made ws family) ((runSample ws family verbose r).outcome ws) := by
  have htold : (Invocation.sample verbose r).made ws family =
      (r.made ws family verbose).map fun m => (m.1, r.textOf m.2) := rfl
  refine outcome_delivery (makes_makeSample r) (fun a => ?_) htold
  simp only [hout, SampleRequest.textOf]
  refine Delivers.after (makes_display _) ?_
  by_cases hr : r.instructions
  · simp only [hr, ↓reduceIte]
    exact delivers_deliver hplace _
  · simp only [hr, Bool.false_eq_true, ↓reduceIte]
    exact delivers_deliver hplace _

/-- The command line agrees with the library, and a failure leaves nothing behind unless it is one to encode the text. It
does so whatever block stands for lone halves; where the block is apart from the texts of the files (`Halves.apartFrom`),
just the texts with a lone half cannot be encoded. -/
theorem run_output {args : List String} {i : Invocation} (hi : Invocation.ofArguments ws.isFile args = .ok i)
    (hshow : i.showsSchema = false) (hout : i.output? = some path) (hplace : ws.write path = .ok place) :
    Delivered ws path place (i.made ws family) (run ws family args) := by
  unfold run
  rw [hi]
  cases i with
  | version => cases hout
  | help => cases hout
  | grammar verbose r => exact delivered_grammar hshow hout hplace
  | sample verbose r => exact delivered_sample hout hplace

end Delivery

/-- A directory with two schemas and an older text. -/
def drawer : Workspace where
  directory := ["work"]
  files := [(["work", "flag.json"], "\x7b\"type\": \"boolean\"\x7d"),
    (["work", "half.json"], "\x7b\"const\": \"\\ud800\"\x7d"), (["work", "out.txt"], "previous\n")]

def fillOut (schema : String) : List String := ["sample", "--schema", schema, "--output", "out.txt"]

def filledOut (schema : String) : SampleRequest where
  files := { schema := some schema, output := some "out.txt" }
  compact := false
  indent := 4
  instructions := false

def noModels : Family where
  module := ""
  models := []

/-- What is read, written and asked for in the directory. -/
theorem drawer_answers : drawer.read "flag.json" = .ok "\x7b\"type\": \"boolean\"\x7d" ∧
    drawer.read "half.json" = .ok "\x7b\"const\": \"\\ud800\"\x7d" ∧ drawer.write "out.txt" = .ok ["work", "out.txt"] ∧
    ∀ schema ∈ ["flag.json", "half.json"],
      Invocation.ofArguments drawer.isFile (fillOut schema) = .ok (.sample false (filledOut schema)) := by
  decide +kernel

theorem load_flag : loadSchemaFile drawer "flag.json" = .ok (.obj [("type", .str "boolean")]) := by
  have hr : drawer.read "flag.json" = .ok "\x7b\"type\": \"boolean\"\x7d" := drawer_answers.1
  have ht : Json.ofText? drawer.halves.char "\x7b\"type\": \"boolean\"\x7d" = some (.obj [("type", .str "boolean")]) :=
    Json.ofText?_oneField ['t', 'y', 'p', 'e'] ['b', 'o', 'o', 'l', 'e', 'a', 'n'] rfl (by simp) fun r =>
      Json.readText_plain _ r (by simp)
  rw [loadSchemaFile, hr]
  simp [ht]

theorem load_half :
    loadSchemaFile drawer "half.json" = .ok (.obj [("const", .str (String.ofList [drawer.halves.char 0xD800]))]) := by
  have hr : drawer.read "half.json" = .ok "\x7b\"const\": \"\\ud800\"\x7d" := drawer_answers.2.1
  have hv (r : List Char) : Json.readText drawer.halves.char ('\\' :: 'u' :: 'd' :: '8' :: '0' :: '0' :: '"' :: r) =
      some ([drawer.halves.char 0xD800], ⟨r, by simp only [List.length_cons]; omega⟩) := by
    simp [Json.readText, Json.readEscape, Json.unit?, Text.isHexDigit, Text.hexValue?, Text.valueOfHexDigits, Json.ofUnit,
      Text.Rest.tail]
  have ht : Json.ofText? drawer.halves.char "\x7b\"const\": \"\\ud800\"\x7d" =
      some (.obj [("const", .str (String.ofList [drawer.halves.char 0xD800]))]) :=
    Json.ofText?_oneField ['c', 'o', 'n', 's', 't'] ['\\', 'u', 'd', '8', '0', '0'] rfl (by simp) hv
  rw [loadSchemaFile, hr]
  simp [ht]

theorem ofArguments_fillOut_flag :
    Invocation.ofArguments drawer.isFile (fillOut "flag.json") = .ok (.sample false (filledOut "flag.json")) :=
  drawer_answers.2.2.2 _ (List.mem_cons_self ..)

theorem ofArguments_fillOut_half :
    Invocation.ofArguments drawer.isFile (fillOut "half.json") = .ok (.sample false (filledOut "half.json")) :=
  drawer_answers.2.2.2 _ (List.mem_cons_of_mem _ (List.mem_cons_self ..))

theorem write_out : drawer.write "out.txt" = .ok ["work", "out.txt"] := drawer_answers.2.2.1

theorem shape_flag : (Source.document (.obj [("type", .str "boolean")])).shape.outcome = (.ok (.scalar .boolean "boolean"), []) := by
  cbv

theorem shape_half : (Source.document (.obj [("const", .str (String.ofList [drawer.halves.char 0xD800]))])).shape.outcome =
    (.ok (.string { allowed := [String.ofList [drawer.halves.char 0xD800]] }), []) := by
  cbv

theorem made_flag : (Invocation.sample false (filledOut "flag.json")).made drawer noModels =
    some (["Loaded schema from: " ++ plainPath "flag.json"], "⟨true|false⟩") := by
  obtain ⟨settings, hc, hd⟩ := (filledOut "flag.json").settings_of_nonneg (by decide)
  rw [Invocation.made, SampleRequest.made_of hc rfl rfl load_flag shape_flag rfl, hd]
  rfl

theorem made_half : (Invocation.sample false (filledOut "half.json")).made drawer noModels =
    some (["Loaded schema from: " ++ plainPath "half.json"],
      "\"⟨" ++ String.ofList [drawer.halves.char 0xD800] ++ "⟩\"") := by
  obtain ⟨settings, hc, hd⟩ := (filledOut "half.json").settings_of_nonneg (by decide)
  rw [Invocation.made, SampleRequest.made_of hc rfl rfl load_half shape_half rfl, hd]
  rfl

theorem run_output_flag :
    Invocation.ofArguments drawer.isFile (fillOut "flag.json") = .ok (.sample false (filledOut "flag.json")) ∧
    drawer.write "out.txt" = .ok ["work", "out.txt"] ∧
    (run drawer noModels (fillOut "flag.json")).exitCode = 0 ∧
    (run drawer noModels (fillOut "flag.json")).written = some (["work", "out.txt"], "⟨true|false⟩\n") := by
  have h : Delivered drawer "out.txt" ["work", "out.txt"] ((Invocation.sample false (filledOut "flag.json")).made drawer noModels)
      (run drawer noModels (fillOut "flag.json")) :=
    run_output ofArguments_fillOut_flag rfl rfl write_out
  rw [made_flag] at h
  refine ⟨ofArguments_fillOut_flag, write_out, h.ended.mpr ⟨_, _, rfl, by decide +kernel⟩, ?_⟩
  rw [h.written]
  decide +kernel

/-- The library makes this sample, but half a pair of units cannot be encoded, and the older text is gone. -/
theorem run_empties_file :
    Invocation.ofArguments drawer.isFile (fillOut "half.json") = .ok (.sample false (filledOut "half.json")) ∧
    (Invocation.sample false (filledOut "half.json")).made drawer noModels =
      some (["Loaded schema from: " ++ plainPath "half.json"],
        "\"⟨" ++ String.ofList [drawer.halves.char 0xD800] ++ "⟩\"") ∧
    drawer.write "out.txt" = .ok ["work", "out.txt"] ∧ drawer.file? ["work", "out.txt"] = some "previous\n" ∧
    (run drawer noModels (fillOut "half.json")).exitCode = 1 ∧
    (run drawer noModels (fillOut "half.json")).written = some (["work", "out.txt"], "") := by
  have h : Delivered drawer "out.txt" ["work", "out.txt"] ((Invocation.sample false (filledOut "half.json")).made drawer noModels)
      (run drawer noModels (fillOut "half.json")) := by
    unfold run
    rw [ofArguments_fillOut_half]
    exact delivered_sample rfl write_out
  rw [made_half] at h
  have hfailed : (run drawer noModels (fillOut "half.json")).exitCode ≠ 0 := by
    rw [Ne, h.ended]
    rintro ⟨said, text, ⟨⟩, hall⟩
    exact absurd (hall _ (List.mem_append_right _ (List.mem_cons_self ..))) (by decide +kernel)
  refine ⟨ofArguments_fillOut_half, made_half, write_out, rfl, ?_, ?_⟩
  · have := h.exitCode_le
    omega
  · rw [h.written]
    decide +kernel

end Command

end RecordGrammar
