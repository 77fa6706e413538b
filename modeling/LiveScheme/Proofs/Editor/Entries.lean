import LiveScheme.Editor.Decode
import LiveScheme.Proofs.Editor.Framing
import LiveScheme.Service.Signature

/-!
# Entries about names

An entry about a bound name has one of three shapes, and so has its documentation: the value is a
closure, another procedure, or no procedure. The services build an entry from texts and names in the
runtime, the editor takes it apart by the labels in it. When the names stand for themselves in
print, the editor has back what the runtime put in, for any texts of values and documentation.
-/

namespace LiveScheme

namespace Node

variable {ι ρ : Type}

mutual

/-- The datum that a tree is written like. An object becomes a symbol named by its text. -/
def datum (name : ρ → Option String) : Node ι ρ → Datum
  | bool b => .bool b
  | int n => .int n
  | real _ x => .real x
  | str _ text => .str text
  | char c => .char c
  | sym x => .sym x
  | list _ items => .list (dataOf name items)
  | vector _ items => .vector (dataOf name items)
  | improper _ items tail => .improper (dataOf name items) (datum name tail)
  | object kind parts => .sym (String.ofList (chars name true (object kind parts)))

def dataOf (name : ρ → Option String) : List (Node ι ρ) → List Datum
  | [] => []
  | x :: rest => datum name x :: dataOf name rest

end

variable (name : ρ → Option String)

theorem dataOf_eq_map (items : List (Node ι ρ)) : dataOf name items = items.map (datum name) := by
  induction items with
  | nil => rfl
  | cons x rest ih => rw [dataOf, ih, List.map_cons]

mutual

theorem chars_datum : ∀ v : Node ι ρ, chars Empty.elim true (datum name v) = chars name true v
  | bool _ | int _ | real _ _ | str _ _ | char _ | sym _ => rfl
  | list _ items => by rw [datum, chars, chars, itemsChars_dataOf items]
  | vector _ items => by rw [datum, chars, chars, itemsChars_dataOf items]
  | improper _ items tail => by
    rw [datum, chars, chars, itemsChars_dataOf items, chars_datum tail]
  | object _ _ => String.toList_ofList

theorem itemsChars_dataOf : ∀ items : List (Node ι ρ),
    itemsChars Empty.elim true (dataOf name items) = itemsChars name true items
  | [] => rfl
  | [x] => by rw [dataOf, dataOf, itemsChars, itemsChars, chars_datum x]
  | x :: y :: rest => by
    change chars Empty.elim true (datum name x) ++
      ' ' :: itemsChars Empty.elim true (dataOf name (y :: rest)) = _
    rw [chars_datum x, itemsChars_dataOf (y :: rest)]
    rfl

end

theorem elements?_datum (v : Node ι ρ) :
    (v.datum name).elements? = v.elements?.map (·.map (·.datum name)) := by
  cases v with
  | list _ items | vector _ items => exact congrArg some (dataOf_eq_map name items)
  | _ => rfl

variable {name}

theorem eq_list_of_datum {v : Node ι ρ} {ds : List Datum} (h : v.datum name = .list ds) :
    ∃ tag items, v = .list tag items := by
  cases v with
  | list tag items => exact ⟨tag, items, rfl⟩
  | _ => cases h

end Node

theorem Machine.write_eq (m : Machine) (v : Value) : m.write v = (v.datum m.objectText).write := by
  rw [write, Datum.write, Node.chars_datum]

namespace Run

/-- The run makes a value that is written like the datum, and takes identities for it. -/
def Makes (objectText : Object → Option String) (x : Run Value) (d : Datum) : Prop :=
  ∀ m : Machine, ∃ v k, x m = .ok v { m with nextTag := k } ∧ v.datum objectText = d

variable {objectText : Object → Option String}

theorem Makes.bind {x : Run Value} {f : Value → Run Value} {d e : Datum} (hx : x.Makes objectText d)
    (hf : ∀ v, v.datum objectText = d → (f v).Makes objectText e) :
    (x >>= f).Makes objectText e := by
  intro m
  obtain ⟨v, k, hv, hd⟩ := hx m
  obtain ⟨w, l, hw, he⟩ := hf v hd { m with nextTag := k }
  exact ⟨w, l, (bind_of_ok hv).trans hw, he⟩

theorem makes_newText (text : String) : (newText text).Makes objectText (.str text) :=
  fun _ => ⟨_, _, rfl, rfl⟩

theorem makes_newList {items : List Value} {ds : List Datum}
    (h : items.map (·.datum objectText) = ds) : (newList items).Makes objectText (.list ds) := by
  intro m
  refine ⟨.list (.fresh m.nextTag) items, m.nextTag + 1, rfl, ?_⟩
  rw [Node.datum, Node.dataOf_eq_map, h]

/-- A recursion that makes one value after another. -/
theorem makes_each {α : Type} {make : α → Run Value} {d : α → Datum}
    (each : List α → Run (List Value)) (hnil : each [] = pure [])
    (hcons : ∀ a rest, each (a :: rest) = do
      let v ← make a
      return v :: (← each rest))
    (hmake : ∀ a, (make a).Makes objectText (d a)) (items : List α) (m : Machine) :
    ∃ vs k, each items m = .ok vs { m with nextTag := k } ∧
      vs.map (·.datum objectText) = items.map d := by
  induction items generalizing m with
  | nil => exact ⟨[], m.nextTag, by rw [hnil]; rfl, rfl⟩
  | cons a rest ih =>
    obtain ⟨v, k, hv, hd⟩ := hmake a m
    obtain ⟨vs, l, hvs, hds⟩ := ih { m with nextTag := k }
    refine ⟨v :: vs, l, ?_, by rw [List.map_cons, hd, hds, List.map_cons]⟩
    rw [hcons, bind_of_ok hv, bind_of_ok hvs]
    rfl

end Run

namespace Signature

variable (objectText : Object → Option String)

/-- The sections of the parameters as the reply lists them. -/
def argsDatum (params : List Datum) (hasRest : Bool) : Datum :=
  .list [.str "args", .list [
    .list (.str "required" :: params),
    .list (.str "optional" :: if hasRest then [.str "..."] else []),
    .list [.str "key"]]]

def moduleDatum (home : String) : Datum := .list [.str "module", .sym home]

def datum (sig : Signature) : Datum :=
  .list [.sym sig.name, argsDatum (sig.required.map (·.datum objectText)) sig.hasRest,
    moduleDatum sig.home]

theorem makes_argsValue (sig : Signature) :
    sig.argsValue.Makes objectText
      (argsDatum (sig.required.map (·.datum objectText)) sig.hasRest) := by
  refine (Run.makes_newText "required").bind fun title₁ h₁ => ?_
  refine (Run.makes_newList (by rw [List.map_cons, h₁])).bind fun required hrequired => ?_
  refine (Run.makes_newText "...").bind fun marker hmarker => ?_
  refine (Run.makes_newText "optional").bind fun title₂ h₂ => ?_
  refine (Run.makes_newList (by rw [List.map_cons, h₂])).bind fun optional hoptional => ?_
  refine (Run.makes_newText "key").bind fun title₃ h₃ => ?_
  refine (Run.makes_newList (by rw [List.map_singleton, h₃])).bind fun key hkey => ?_
  refine (Run.makes_newText "args").bind fun title₄ h₄ => ?_
  refine (Run.makes_newList (by
    rw [List.map_cons, List.map_cons, List.map_singleton, hrequired, hoptional, hkey])).bind
    fun sections hsections => Run.makes_newList ?_
  rw [List.map_cons, List.map_singleton, h₄, hsections]
  cases sig.hasRest with
  | true => rw [if_pos rfl, if_pos rfl, List.map_singleton, hmarker]
  | false => rfl

theorem makes_moduleValue (home : String) :
    (moduleValue home).Makes objectText (moduleDatum home) := by
  refine (Run.makes_newText "module").bind fun title h => Run.makes_newList ?_
  rw [List.map_cons, List.map_singleton, h]
  rfl

theorem makes_value (sig : Signature) : sig.value.Makes objectText (sig.datum objectText) := by
  refine (makes_argsValue objectText sig).bind fun args hargs => ?_
  refine (makes_moduleValue objectText sig.home).bind fun home hhome => Run.makes_newList ?_
  rw [List.map_cons, List.map_cons, List.map_singleton, hargs, hhome]
  rfl

end Signature

namespace Introspection

variable {objectText : Object → Option String}

/-- A key in front of a datum, which goes on as a list when the datum is one. -/
def entryDatum (key : String) (d : Datum) : Datum :=
  match d.elements? with
  | some items => .list (.str key :: items)
  | none => .improper [.str key] d

theorem makes_entry (key : String) {v : Value} {d : Datum} (h : v.datum objectText = d) :
    (entry key v).Makes objectText (entryDatum key d) := by
  have helements : d.elements? = v.elements?.map (·.map (·.datum objectText)) := by
    rw [← h, Node.elements?_datum]
  refine (Run.makes_newText key).bind fun title htitle => ?_
  unfold entryDatum
  rw [helements]
  cases v.elements? with
  | some items => exact Run.makes_newList (by rw [List.map_cons, htitle])
  | none =>
    intro m
    refine ⟨.improper (.fresh m.nextTag) [title] v, m.nextTag + 1, rfl, ?_⟩
    rw [Node.datum, Node.dataOf_eq_map, List.map_singleton, htitle, h]
    rfl

end Introspection

/-- An entry about a bound name: the signature of a closure, the home of another procedure, or the
text of a value that is no procedure. -/
inductive NameEntry
  | closure (sig : Signature)
  | procedure (name home : String)
  | object (name text home : String)

namespace NameEntry

def name : NameEntry → String
  | closure sig => sig.name
  | procedure name _ | object name _ _ => name

def home : NameEntry → String
  | closure sig => sig.home
  | procedure _ home | object _ _ home => home

def value : NameEntry → Run Value
  | closure sig => sig.value
  | procedure name home => do Run.newList [.sym name, ← Signature.moduleValue home]
  | object name text home => do
    let shown ← Introspection.entry "value" (← Run.newText text)
    Run.newList [.sym name, shown, ← Signature.moduleValue home]

/-- The entries of a reply. -/
def values : List NameEntry → Run (List Value)
  | [] => return []
  | e :: rest => do
    let v ← e.value
    return v :: (← values rest)

/-- The entry about what a name means. -/
def ofFound (m : Machine) (found : Introspection.Found) : NameEntry :=
  match found.value with
  | .closure id =>
    match m.closures[id]? with
    | some c => closure (.ofFormals found.name c.formals found.home)
    | none => object found.name (m.write (.closure id)) found.home
  | .primitive _ => procedure found.name found.home
  | v => object found.name (m.write v) found.home

/-- The entries that the service makes have these shapes. -/
theorem autodocEntry_eq (m : Machine) (found : Introspection.Found) :
    Introspection.autodocEntry found m = (ofFound m found).value m := by
  obtain ⟨name, v, home⟩ := found
  cases v with
  | object kind parts =>
    cases kind with
    | closure id =>
      cases parts with
      | nil =>
        have hclosure : Run.closure? (.closure id) m = .ok m.closures[id]? m := rfl
        unfold Introspection.autodocEntry ofFound
        rw [bind_of_ok hclosure]
        dsimp only
        cases m.closures[id]? <;> rfl
      | cons => rfl
    | primitive p => cases parts <;> rfl
    | _ => rfl
  | _ => rfl

section Data

variable (objectText : Object → Option String)

/-- What an entry says behind the name. -/
def props : NameEntry → List Datum
  | closure sig => [Signature.argsDatum (sig.required.map (·.datum objectText)) sig.hasRest,
    Signature.moduleDatum sig.home]
  | procedure _ home => [Signature.moduleDatum home]
  | object _ text home => [.improper [.str "value"] (.str text), Signature.moduleDatum home]

def datum (e : NameEntry) : Datum := .list (.sym e.name :: e.props objectText)

theorem makes_value : ∀ e : NameEntry, e.value.Makes objectText (e.datum objectText)
  | closure sig => sig.makes_value objectText
  | procedure n home => by
    refine (Signature.makes_moduleValue objectText home).bind fun v hv => Run.makes_newList ?_
    rw [List.map_cons, List.map_singleton, hv]
    rfl
  | object n text home => by
    refine (Run.makes_newText text).bind fun v hv => ?_
    refine (Introspection.makes_entry "value" hv).bind fun shown hshown => ?_
    refine (Signature.makes_moduleValue objectText home).bind fun v hv => Run.makes_newList ?_
    rw [List.map_cons, List.map_cons, List.map_singleton, hshown, hv]
    rfl

theorem values_ok (entries : List NameEntry) (m : Machine) : ∃ vs k,
    values entries m = .ok vs { m with nextTag := k } ∧
      vs.map (·.datum objectText) = entries.map (·.datum objectText) :=
  Run.makes_each values rfl (fun _ _ => rfl) (makes_value objectText) entries m

theorem makes_reply (entries : List NameEntry) :
    (values entries >>= Run.newList).Makes objectText
      (.list (entries.map (·.datum objectText))) := by
  intro m
  obtain ⟨vs, k, hvs, hds⟩ := values_ok objectText entries m
  obtain ⟨v, l, hv, hd⟩ := Run.makes_newList hds { m with nextTag := k }
  exact ⟨v, l, (bind_of_ok hvs).trans hv, hd⟩

/-- Symbols that stand for themselves, and parameters that are written like readable data. -/
structure Readable (e : NameEntry) : Prop where
  name : ReadableName e.name
  home : ReadableName e.home
  params : ∀ sig, e = closure sig → ∀ v ∈ sig.required, (v.datum objectText).Readable

theorem readable_moduleDatum {home : String} (h : ReadableName home) :
    (Signature.moduleDatum home).Readable :=
  .list _ (List.forall_mem_cons.mpr ⟨.str _ trivial, List.forall_mem_singleton.mpr (.sym _ h)⟩)

theorem readable_argsDatum {params : List Datum} (h : ∀ d ∈ params, d.Readable) (hasRest : Bool) :
    (Signature.argsDatum params hasRest).Readable := by
  have hoptional : ∀ d ∈ if hasRest then [Datum.str "..."] else [], d.Readable := by
    cases hasRest with
    | true => exact List.forall_mem_singleton.mpr (.str _ trivial)
    | false => exact List.forall_mem_nil _
  refine .list _ (List.forall_mem_cons.mpr ⟨.str _ trivial, List.forall_mem_singleton.mpr ?_⟩)
  refine .list _ (List.forall_mem_cons.mpr ⟨?_, List.forall_mem_cons.mpr ⟨?_, ?_⟩⟩)
  · exact .list _ (List.forall_mem_cons.mpr ⟨.str _ trivial, h⟩)
  · exact .list _ (List.forall_mem_cons.mpr ⟨.str _ trivial, hoptional⟩)
  · exact List.forall_mem_singleton.mpr
      (.list _ (List.forall_mem_singleton.mpr (.str _ trivial)))

/-- An entry has the name and a rest of readable data. -/
theorem readable_entry {n : String} (h : ReadableName n) {props : List Datum}
    (hprops : ∀ d ∈ props, d.Readable) : (Datum.list (.sym n :: props)).Readable :=
  .list _ (List.forall_mem_cons.mpr ⟨.sym _ h, hprops⟩)

theorem readable_text_pair (key text : String) :
    (Datum.improper [.str key] (.str text)).Readable :=
  .improper _ _ (List.cons_ne_nil _ _) (List.forall_mem_singleton.mpr (.str _ trivial))
    (.str _ trivial) rfl

variable {objectText}

theorem Readable.props {e : NameEntry} (h : e.Readable objectText) :
    ∀ d ∈ e.props objectText, d.Readable := by
  have hhome : ∀ d ∈ [Signature.moduleDatum e.home], d.Readable :=
    List.forall_mem_singleton.mpr (readable_moduleDatum h.home)
  cases e with
  | closure sig =>
    have hparams : ∀ d ∈ sig.required.map (·.datum objectText), d.Readable :=
      List.forall_mem_map.mpr (h.params sig rfl)
    exact List.forall_mem_cons.mpr ⟨readable_argsDatum hparams sig.hasRest, hhome⟩
  | procedure n home => exact hhome
  | object n text home => exact List.forall_mem_cons.mpr ⟨readable_text_pair "value" text, hhome⟩

theorem Readable.datum {e : NameEntry} (h : e.Readable objectText) :
    (e.datum objectText).Readable :=
  readable_entry h.name h.props

end Data

end NameEntry

namespace Signature

/-- The name that the editor gives to a parameter. A symbol has its own one. -/
def paramName (objectText : Object → Option String) : Value → String
  | .sym n => n
  | v => Decode.nameOf (v.datum objectText)

theorem nameOf_datum (objectText : Object → Option String) (v : Value) :
    Decode.nameOf (v.datum objectText) = paramName objectText v := by
  cases v with
  | sym n => exact Decode.label_sym n
  | _ => rfl

/-- What the editor makes of a signature. -/
def read (objectText : Object → Option String) (sig : Signature) : AutodocEntry :=
  { AutodocEntry.named sig.name with
    required := sig.required.map (paramName objectText)
    optional := if sig.hasRest then ["..."] else []
    home := .text sig.home }

end Signature

def NameEntry.read (objectText : Object → Option String) : NameEntry → AutodocEntry
  | closure sig => sig.read objectText
  | procedure n home => { AutodocEntry.named n with home := .text home }
  | object n text home => { AutodocEntry.named n with home := .text home, value := .text text }

namespace Decode

variable {objectText : Object → Option String}

theorem parse_write {d : Datum} (h : d.Readable) : parse d.write = pure d := by
  rw [parse, Datum.readOne_of_readAll h.readsBack.readAll]
  rfl

theorem key?_list_str (title : String) (items : List Datum) :
    key? (.list (.str title :: items)) = some title := congrArg some (label_str title)

theorem key?_text_pair (title text : String) :
    key? (.improper [.str title] (.str text)) = some title := congrArg some (label_str title)

theorem labelled?_cons_self {d : Datum} {key : String} (h : key? d = some key)
    (rest : List Datum) : labelled? (.list (d :: rest)) key = some d := by
  rw [labelled?, Node.elements?, Option.bind_some, List.find?_cons_of_pos (by rw [h]; simp)]

theorem labelled?_cons_of_ne {d : Datum} {key : String} (h : key? d ≠ some key)
    (rest : List Datum) : labelled? (.list (d :: rest)) key = labelled? (.list rest) key := by
  rw [labelled?, Node.elements?, Option.bind_some, List.find?_cons_of_neg (by simpa using h)]
  rfl

theorem key?_argsDatum (params : List Datum) (hasRest : Bool) :
    key? (Signature.argsDatum params hasRest) = some "args" := key?_list_str "args" _

theorem key?_moduleDatum (home : String) : key? (Signature.moduleDatum home) = some "module" :=
  key?_list_str "module" _

theorem setSections_cons {e e' : AutodocEntry} {title : String} {items : List Datum}
    (h : e.setSection title (items.map nameOf) = .ok e') (more : List Datum) :
    setSections e (.list (.str title :: items) :: more) = setSections e' more := by
  rw [setSections, key?_list_str]
  change ((e.setSection title (items.map nameOf)).mapError EditorStop.fault >>= fun e =>
    setSections e more) = _
  rw [h]
  rfl

theorem withArgs_argsDatum (e : AutodocEntry) (params : List Datum) (hasRest : Bool)
    (props : List Datum) :
    withArgs e (.list (Signature.argsDatum params hasRest :: props)) =
      .ok { e with
        required := params.map nameOf
        optional := if hasRest then ["..."] else []
        key := [] } := by
  have hmarker : (if hasRest then [Datum.str "..."] else []).map nameOf =
      if hasRest then ["..."] else [] := by
    cases hasRest with
    | true => exact congrArg (fun s => [s]) (label_str "...")
    | false => rfl
  rw [withArgs, labelled?_cons_self (key?_argsDatum params hasRest)]
  change setSections e [.list (.str "required" :: params),
    .list (.str "optional" :: if hasRest then [.str "..."] else []), .list [.str "key"]] = _
  rw [setSections_cons rfl, setSections_cons rfl, setSections_cons rfl, hmarker]
  rfl

theorem withHome_moduleDatum (e : AutodocEntry) (home : String) :
    withHome e (.list [Signature.moduleDatum home]) = { e with home := .text home } := by
  rw [withHome, labelled?_cons_self (key?_moduleDatum home)]
  exact congrArg (fun s => { e with home := .text s }) (label_sym home)

theorem withHome_cons (e : AutodocEntry) {d : Datum} (h : key? d ≠ some "module")
    (props : List Datum) : withHome e (.list (d :: props)) = withHome e (.list props) := by
  rw [withHome, labelled?_cons_of_ne h, withHome]

theorem withValue_nil (e : AutodocEntry) : withValue e (.list []) = e := rfl

theorem withValue_cons (e : AutodocEntry) {d : Datum} (h : key? d ≠ some "value")
    (props : List Datum) : withValue e (.list (d :: props)) = withValue e (.list props) := by
  rw [withValue, labelled?_cons_of_ne h, withValue]

theorem withArgs_nil (e : AutodocEntry) : withArgs e (.list []) = .ok e := rfl

theorem withArgs_cons (e : AutodocEntry) {d : Datum} (h : key? d ≠ some "args")
    (props : List Datum) : withArgs e (.list (d :: props)) = withArgs e (.list props) := by
  rw [withArgs, labelled?_cons_of_ne h, withArgs]

theorem autodocEntry_cons (n : String) (props : List Datum) :
    autodocEntry (.list (.sym n :: props)) = (do
      let e ← withArgs (.named n) (.list props)
      return withValue (withHome e (.list props)) (.list props)) := by
  rw [autodocEntry, Node.elements?]
  dsimp only
  rw [label_sym]

/-- An entry is read as what was put into it. -/
theorem autodocEntry_datum : ∀ e : NameEntry,
    autodocEntry (e.datum objectText) = .ok (e.read objectText)
  | .closure sig => by
    have hparams : (sig.required.map (·.datum objectText)).map nameOf =
        sig.required.map (Signature.paramName objectText) := by
      rw [List.map_map]
      exact List.map_congr_left fun v _ => Signature.nameOf_datum objectText v
    rw [NameEntry.datum, autodocEntry_cons, NameEntry.props, withArgs_argsDatum]
    change Except.ok (withValue (withHome _ _) _) = _
    rw [withHome_cons _ (by rw [key?_argsDatum]; decide), withHome_moduleDatum,
      withValue_cons _ (by rw [key?_argsDatum]; decide),
      withValue_cons _ (by rw [key?_moduleDatum]; decide), withValue_nil, hparams]
    rfl
  | .procedure n home => by
    rw [NameEntry.datum, autodocEntry_cons, NameEntry.props,
      withArgs_cons _ (by rw [key?_moduleDatum]; decide), withArgs_nil]
    change Except.ok (withValue (withHome _ _) _) = _
    rw [withHome_moduleDatum, withValue_cons _ (by rw [key?_moduleDatum]; decide)]
    rfl
  | .object n text home => by
    rw [NameEntry.datum, autodocEntry_cons, NameEntry.props,
      withArgs_cons _ (by rw [key?_text_pair]; decide),
      withArgs_cons _ (by rw [key?_moduleDatum]; decide), withArgs_nil]
    change Except.ok (withValue (withHome _ _) _) = _
    rw [withHome_cons _ (by rw [key?_text_pair]; decide), withHome_moduleDatum, withValue,
      labelled?_cons_self (key?_text_pair "value" text)]
    rfl

theorem autodocEntries_map (entries : List NameEntry) :
    autodocEntries (entries.map (·.datum objectText)) = .ok (entries.map (·.read objectText)) := by
  induction entries with
  | nil => rfl
  | cons e rest ih =>
    rw [List.map_cons, autodocEntries, autodocEntry_datum, ih]
    rfl

/-- A list of entries is read as what was put into it. -/
theorem autodoc_write {entries : List NameEntry} (h : ∀ e ∈ entries, e.Readable objectText) :
    autodoc (Datum.list (entries.map (·.datum objectText))).write =
      .ok (entries.map (·.read objectText)) := by
  have hread : (Datum.list (entries.map (·.datum objectText))).Readable :=
    .list _ (List.forall_mem_map.mpr fun e he => (h e he).datum)
  rw [autodoc, parse_write hread, pure_bind]
  exact autodocEntries_map entries

end Decode

/-- Documentation of a bound name, with its text: the signature of a closure, no signature for
another procedure, or the name alone. -/
inductive NameDoc
  | closure (sig : Signature) (docstring : String)
  | procedure (docstring : String)
  | object (name home docstring : String)

namespace NameDoc

def docstring : NameDoc → String
  | closure _ text | procedure text | object _ _ text => text

def signature : NameDoc → Run Value
  | closure sig _ => sig.value
  | procedure _ => Run.newText ""
  | object name home _ => do
    let args ← (Signature.mk name [] false home).argsValue
    Run.newList [.sym name, args]

def value (d : NameDoc) : Run Value := do
  let signature ← d.signature
  let signature ← Introspection.entry "signature" signature
  Run.newList [signature, ← Introspection.entry "docstring" (← Run.newText d.docstring)]

def aboutProcedure (home doc : String) : String := "A procedure in module " ++ home ++ ".\n" ++ doc

def aboutObject (home text : String) : String :=
  "An object in module " ++ home ++ ".\n\nValue:\n" ++ text

/-- The documentation of what a name means. -/
def ofFound (m : Machine) (found : Introspection.Found) : NameDoc :=
  match found.value with
  | .closure id =>
    match m.closures[id]? with
    | some c =>
      closure (.ofFormals found.name c.formals found.home) (aboutProcedure found.home c.doc)
    | none => object found.name found.home (aboutObject found.home (m.write (.closure id)))
  | .primitive p => procedure (aboutProcedure found.home p.doc)
  | v => object found.name found.home (aboutObject found.home (m.write v))

/-- The documentation that the service makes has these shapes. -/
theorem documentation_eq (m : Machine) (found : Introspection.Found) :
    Introspection.documentation found m = (ofFound m found).value m := by
  obtain ⟨name, v, home⟩ := found
  cases v with
  | object kind parts =>
    cases kind with
    | closure id =>
      cases parts with
      | nil =>
        have hclosure : Run.closure? (.closure id) m = .ok m.closures[id]? m := rfl
        unfold Introspection.documentation ofFound
        rw [bind_of_ok hclosure]
        dsimp only
        cases m.closures[id]? <;> rfl
      | cons => rfl
    | primitive p => cases parts <;> rfl
    | _ => rfl
  | _ => rfl

section Data

variable (objectText : Object → Option String)

def signatureDatum : NameDoc → Datum
  | closure sig _ => sig.datum objectText
  | procedure _ => .str ""
  | object n _ _ => .list [.sym n, Signature.argsDatum [] false]

def datum (d : NameDoc) : Datum :=
  .list [Introspection.entryDatum "signature" (d.signatureDatum objectText),
    .improper [.str "docstring"] (.str d.docstring)]

theorem makes_signature : ∀ d : NameDoc, d.signature.Makes objectText (d.signatureDatum objectText)
  | closure sig _ => sig.makes_value objectText
  | procedure _ => Run.makes_newText ""
  | object n home _ => by
    refine ((Signature.mk n [] false home).makes_argsValue objectText).bind fun args hargs =>
      Run.makes_newList ?_
    rw [List.map_cons, List.map_singleton, hargs]
    rfl

theorem makes_value (d : NameDoc) : d.value.Makes objectText (d.datum objectText) := by
  refine (d.makes_signature objectText).bind fun sig hsig => ?_
  refine (Introspection.makes_entry "signature" hsig).bind fun first hfirst => ?_
  refine (Run.makes_newText d.docstring).bind fun text htext => ?_
  refine (Introspection.makes_entry "docstring" htext).bind fun second hsecond =>
    Run.makes_newList ?_
  rw [List.map_cons, List.map_singleton, hfirst, hsecond]
  rfl

/-- Symbols that stand for themselves, and parameters that are written like readable data. -/
def Readable : NameDoc → Prop
  | closure sig _ => (NameEntry.closure sig).Readable objectText
  | procedure _ => True
  | object n _ _ => ReadableName n

variable {objectText}

theorem Readable.datum : ∀ {d : NameDoc}, d.Readable objectText →
    (d.datum objectText).Readable := by
  have hall : ∀ {first : Datum} (text : String), first.Readable →
      (Datum.list [first, .improper [.str "docstring"] (.str text)]).Readable :=
    fun text hfirst => .list _ (List.forall_mem_cons.mpr ⟨hfirst,
      List.forall_mem_singleton.mpr (NameEntry.readable_text_pair "docstring" text)⟩)
  have hlist : ∀ {items : List Datum}, (Datum.list items).Readable →
      (Datum.list (.str "signature" :: items)).Readable := by
    rintro items (_ | _ | _ | _ | _ | _ | ⟨_, hitems⟩)
    exact .list _ (List.forall_mem_cons.mpr ⟨.str _ trivial, hitems⟩)
  rintro (⟨sig, text⟩ | text | ⟨n, home, text⟩) h
  · have hsig : (NameEntry.closure sig).Readable objectText := h
    exact hall text (hlist hsig.datum)
  · exact hall text (NameEntry.readable_text_pair "signature" "")
  · exact hall text (hlist (NameEntry.readable_entry h (List.forall_mem_singleton.mpr
      (NameEntry.readable_argsDatum (List.forall_mem_nil _) false))))

end Data

/-- What the editor makes of documentation. -/
def read (objectText : Object → Option String) : NameDoc → SymbolDoc
  | closure sig text => ⟨some (sig.read objectText), .text text⟩
  | procedure text => ⟨none, .text text⟩
  | object n _ text => ⟨some (.named n), .text text⟩

end NameDoc

namespace Decode

variable {objectText : Object → Option String}

theorem signature?_datum : ∀ d : NameDoc,
    signature? (rest (Introspection.entryDatum "signature" (d.signatureDatum objectText))) =
      .ok (d.read objectText).signature
  | .closure sig _ => by
    change (do return some (← autodocEntry (sig.datum objectText))) = _
    have hentry : autodocEntry (sig.datum objectText) = .ok (sig.read objectText) :=
      autodocEntry_datum (.closure sig)
    rw [hentry]
    rfl
  | .procedure _ => rfl
  | .object n home text => by
    change (do return some (← autodocEntry (.list [.sym n, Signature.argsDatum [] false]))) = _
    rw [autodocEntry_cons, withArgs_argsDatum]
    rfl

/-- Documentation is read as what was put into it. -/
theorem symbolDocumentation_write {d : NameDoc} (h : d.Readable objectText) :
    symbolDocumentation (d.datum objectText).write = .ok (some (d.read objectText)) := by
  have hkey : key? (Introspection.entryDatum "signature" (d.signatureDatum objectText)) =
      some "signature" := by
    cases d <;> exact congrArg some (label_str "signature")
  have hdoc : key? (.improper [.str "docstring"] (.str d.docstring)) = some "docstring" :=
    key?_text_pair "docstring" d.docstring
  have hnotEmpty : ¬ isEmptyText (d.datum objectText) = true := Bool.false_ne_true
  rw [symbolDocumentation, parse_write h.datum, pure_bind, if_neg hnotEmpty]
  rw [NameDoc.datum, labelled?_cons_self hkey,
    labelled?_cons_of_ne (by rw [hkey]; decide), labelled?_cons_self hdoc]
  dsimp only
  rw [signature?_datum]
  cases d <;> rfl

theorem symbolDocumentation_empty : symbolDocumentation (Datum.str "").write = .ok none := by
  rw [symbolDocumentation, parse_write (.str _ trivial)]
  rfl

end Decode

namespace ModuleExports

/-- The exports of a module as the service lists them. -/
def datum (e : ModuleExports) : Datum :=
  .list [Introspection.listing "modules" e.modules, Introspection.listing "procs" e.procs,
    Introspection.listing "syntax" e.keywords, Introspection.listing "vars" e.vars]

def ofEntries (entries : List (String × Introspection.Kind)) : ModuleExports where
  modules := []
  procs := Introspection.ofKind .procedure entries
  keywords := Introspection.ofKind .keyword entries
  vars := Introspection.ofKind .variable entries

theorem exportsDatum_eq (entries : List (String × Introspection.Kind)) :
    Introspection.exportsDatum entries = (ofEntries entries).datum := rfl

def names (e : ModuleExports) : List String := e.modules ++ e.procs ++ e.keywords ++ e.vars

theorem readable_listing (title : String) {names : List String}
    (h : ∀ name ∈ names, ReadableName name) : (Introspection.listing title names).Readable := by
  refine .list _ (List.forall_mem_cons.mpr ⟨.str _ trivial, List.forall_mem_map.mpr ?_⟩)
  exact fun name hname => .list _ (List.forall_mem_singleton.mpr (.sym _ (h name hname)))

theorem readable_datum {e : ModuleExports} (h : ∀ name ∈ e.names, ReadableName name) :
    e.datum.Readable := by
  simp only [names, List.forall_mem_append] at h
  obtain ⟨⟨⟨hmodules, hprocs⟩, hkeywords⟩, hvars⟩ := h
  refine .list _ (List.forall_mem_cons.mpr ⟨readable_listing _ hmodules, ?_⟩)
  refine List.forall_mem_cons.mpr ⟨readable_listing _ hprocs, ?_⟩
  refine List.forall_mem_cons.mpr ⟨readable_listing _ hkeywords, ?_⟩
  exact List.forall_mem_singleton.mpr (readable_listing _ hvars)

end ModuleExports

namespace Decode

theorem key?_listing (title : String) (items : List String) :
    key? (Introspection.listing title items) = some title := key?_list_str title _

theorem names_listing (title : String) (items : List String) :
    names (rest (Introspection.listing title items)) = .ok items := by
  change Except.ok ((items.map fun name => Datum.list [.sym name]).map nameOf) = _
  rw [List.map_map]
  exact congrArg Except.ok ((List.map_congr_left fun name _ => label_sym name).trans
    (List.map_id' items))

theorem bucket_cons_self (text title : String) (items : List String) (more : List Datum) :
    bucket text (.list (Introspection.listing title items :: more)) title = .ok items := by
  rw [bucket, labelled?_cons_self (key?_listing title items)]
  exact names_listing title items

theorem bucket_cons_of_ne (text : String) {title key : String} (h : key ≠ title)
    (items : List String) (more : List Datum) :
    bucket text (.list (Introspection.listing key items :: more)) title =
      bucket text (.list more) title := by
  rw [bucket, labelled?_cons_of_ne (by rw [key?_listing]; simpa using h), bucket]

/-- The exports of a module are read as what was put into the buckets. -/
theorem moduleExports_write {e : ModuleExports} (h : ∀ name ∈ e.names, ReadableName name) :
    moduleExports e.datum.write = .ok e := by
  rw [moduleExports, parse_write (ModuleExports.readable_datum h), pure_bind]
  generalize e.datum.write = text
  rw [ModuleExports.datum, bucket_cons_self, bucket_cons_of_ne _ (by decide), bucket_cons_self,
    bucket_cons_of_ne _ (by decide), bucket_cons_of_ne _ (by decide), bucket_cons_self,
    bucket_cons_of_ne _ (by decide), bucket_cons_of_ne _ (by decide),
    bucket_cons_of_ne _ (by decide), bucket_cons_self]
  rfl

/-- What the services say about names is built in three shapes of entries, three of documentation,
and the buckets of a module; an editor has all of it back from the text of the reply, in the same
order. The empty text stands for a name that is unbound. -/
theorem names_lossless (m : Machine) :
    ((∀ found, Introspection.autodocEntry found m = (NameEntry.ofFound m found).value m) ∧
      ∀ entries : List NameEntry, (∀ e ∈ entries, e.Readable m.objectText) →
        ∃ v k, (NameEntry.values entries >>= Run.newList) m = .ok v { m with nextTag := k } ∧
          autodoc (m.write v) = .ok (entries.map (·.read m.objectText))) ∧
    ((∀ found, Introspection.documentation found m = (NameDoc.ofFound m found).value m) ∧
      (∀ d : NameDoc, d.Readable m.objectText →
        ∃ v k, d.value m = .ok v { m with nextTag := k } ∧
          symbolDocumentation (m.write v) = .ok (some (d.read m.objectText))) ∧
      ∃ v k, Run.newText "" m = .ok v { m with nextTag := k } ∧
        symbolDocumentation (m.write v) = .ok none) ∧
    (∀ entries, Introspection.exportsDatum entries = (ModuleExports.ofEntries entries).datum) ∧
      ∀ e : ModuleExports, (∀ name ∈ e.names, ReadableName name) →
        ∃ v k, Run.ofDatum e.datum m = .ok v { m with nextTag := k } ∧
          moduleExports (m.write v) = .ok e := by
  have hmakes : ∀ {x : Run Value} {d : Datum}, x.Makes m.objectText d →
      ∃ v k, x m = .ok v { m with nextTag := k } ∧ m.write v = d.write := by
    intro x d hx
    obtain ⟨v, k, hv, hd⟩ := hx m
    exact ⟨v, k, hv, by rw [m.write_eq, hd]⟩
  refine ⟨⟨NameEntry.autodocEntry_eq m, fun entries hentries => ?_⟩,
    ⟨NameDoc.documentation_eq m, fun d hd => ?_, ?_⟩, ModuleExports.exportsDatum_eq,
    fun e he => ?_⟩
  · obtain ⟨v, k, hv, hwrite⟩ := hmakes (NameEntry.makes_reply _ entries)
    exact ⟨v, k, hv, by rw [hwrite, autodoc_write hentries]⟩
  · obtain ⟨v, k, hv, hwrite⟩ := hmakes (d.makes_value _)
    exact ⟨v, k, hv, by rw [hwrite, symbolDocumentation_write hd]⟩
  · obtain ⟨v, k, hv, hwrite⟩ := hmakes (Run.makes_newText "")
    exact ⟨v, k, hv, by rw [hwrite, symbolDocumentation_empty]⟩
  · obtain ⟨v, k, hv, hchars⟩ := Run.ofDatum_fresh e.datum m.nextTag
    refine ⟨v, k, hv m rfl, ?_⟩
    have hwrite : m.write v = e.datum.write := congrArg String.ofList (hchars m.objectText true)
    rw [hwrite, moduleExports_write he]

/-- A closure, a procedure of the runtime and a string. -/
def sampleEntries : List NameEntry := [
  .closure ⟨"f", [.sym "x", .sym "y"], true, "stklos"⟩,
  .procedure "car" "SCHEME",
  .object "x" "\"a\"" "stklos"]

theorem readable_sampleEntries (objectText : Object → Option String) :
    ∀ e ∈ sampleEntries, e.Readable objectText := by
  have hname : ∀ {n : String}, n ∈ ["f", "x", "y", "car", "stklos", "SCHEME"] →
      ReadableName n := by decide
  have hparams : ∀ v ∈ ([.sym "x", .sym "y"] : List Value), (v.datum objectText).Readable :=
    List.forall_mem_cons.mpr ⟨.sym _ (hname (by simp)),
      List.forall_mem_singleton.mpr (.sym _ (hname (by simp)))⟩
  have hentry : ∀ e : NameEntry, e.name ∈ ["f", "x", "y", "car", "stklos", "SCHEME"] →
      e.home ∈ ["f", "x", "y", "car", "stklos", "SCHEME"] →
      (∀ sig, e = .closure sig → ∀ v ∈ sig.required, (v.datum objectText).Readable) →
      e.Readable objectText := fun e hn hh hp => ⟨hname hn, hname hh, hp⟩
  refine List.forall_mem_cons.mpr ⟨hentry _ (by decide) (by decide) ?_, ?_⟩
  · rintro sig heq
    cases heq
    exact hparams
  · refine List.forall_mem_cons.mpr ⟨hentry _ (by decide) (by decide) (by rintro _ ⟨⟩), ?_⟩
    exact List.forall_mem_singleton.mpr (hentry _ (by decide) (by decide) (by rintro _ ⟨⟩))

theorem names_lossless_sample :
    (∀ e ∈ sampleEntries, e.Readable Repl.idle.machine.objectText) ∧
    ∃ v k, (NameEntry.values sampleEntries >>= Run.newList) Repl.idle.machine =
      .ok v { Repl.idle.machine with nextTag := k } ∧
    autodoc (Repl.idle.machine.write v) = .ok [
      { AutodocEntry.named "f" with
        required := ["x", "y"], optional := ["..."], home := .text "stklos" },
      { AutodocEntry.named "car" with home := .text "SCHEME" },
      { AutodocEntry.named "x" with home := .text "stklos", value := .text "\"a\"" }] :=
  have h := readable_sampleEntries Repl.idle.machine.objectText
  ⟨h, (names_lossless Repl.idle.machine).1.2 sampleEntries h⟩

end Decode

end LiveScheme
