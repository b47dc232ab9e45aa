import Mathlib.Data.List.Induction
import Mathlib.Data.List.Perm.Basic
import Mathlib.Data.List.Nodup
import StyleModule.Proofs.Json.Records

/-!
# Ways to a source

A source comes about in three ways: from a component in a project with defaults, from a plain
source by setting one thing after another, and from JSON. What is set one at a time is a `Setting`.
Settings of different keys may change places (`Setting.apply_comm`), and of two with one key the
later absorbs the earlier (`Setting.apply_absorb`), so of the defaults and a component's own
settings there prevail the component's and those defaults that it does not speak of
(`Source.setAll_prevailing`). One field more in a JSON object is one setting more of the source that
is read from it (`Source.ofJson?_concat`), wherever the field stands (`Source.ofJson?_perm`).
-/

namespace StyleModule

open Json (Fields Lossless Written)

/-- One thing that can be set of a source, with what it is set to. -/
inductive Setting where
  | tag (tag : String)
  | mode (mode : String)
  | encapsulation (encapsulation : Encapsulation)
  | keepSelectors (keep : Bool)
  | format (format : Format)
  | sourceMap (asked : Bool)
  | vendorPrefixes (asked : Bool)
  deriving DecidableEq

namespace Setting

/-- The key that a setting goes by in JSON. -/
def key : Setting → String
  | .tag _ => "tag"
  | .mode _ => "mode"
  | .encapsulation _ => "encapsulation"
  | .keepSelectors _ => "commentOriginalSelector"
  | .format _ => "module"
  | .sourceMap _ => "sourceMap"
  | .vendorPrefixes _ => "autoprefixer"

def value : Setting → Json
  | .tag t => .ofText t
  | .mode m => .ofText m
  | .encapsulation e => e.toJson
  | .keepSelectors keep => .bool keep
  | .format f => f.toJson
  | .sourceMap asked => .bool asked
  | .vendorPrefixes asked => .bool asked

def field (x : Setting) : String × Json := (x.key, x.value)

/-- The source with this set. -/
def apply : Setting → Source → Source
  | .tag t, s => s.setTag t
  | .mode m, s => s.setMode m
  | .encapsulation e, s => s.setEncapsulation e
  | .keepSelectors keep, s => s.setKeepSelectors keep
  | .format f, s => s.setFormat f
  | .sourceMap asked, s => s.setSourceMap asked
  | .vendorPrefixes asked, s => s.setVendorPrefixes asked

theorem apply_absorb {x y : Setting} (same : x.key = y.key) (s : Source) :
    y.apply (x.apply s) = y.apply s := by
  cases x <;> cases y <;> simp [key] at same <;> rfl

theorem apply_comm {x y : Setting} (other : x.key ≠ y.key) (s : Source) :
    y.apply (x.apply s) = x.apply (y.apply s) := by
  cases x <;> cases y <;> simp [key] at other <;> rfl

theorem key_mem (x : Setting) : x.key ∈ "tag" :: Defaults.keys := by
  cases x <;> simp [key, Defaults.keys]

theorem written (x : Setting) : Written x.value := by
  cases x <;> constructor

end Setting

/-! ## Setting one thing after another -/

open Setting (key)

section Winning

/-- Of settings in general and settings of one's own those that prevail: one's own, and the general
ones that these do not speak of. -/
def prevailing (general own : List Setting) : List Setting :=
  general.filter (fun x => x.key ∉ own.map key) ++ own

variable {general own : List Setting}

theorem nodup_prevailing (distinct : (general.map key).Nodup) (distinctOwn : (own.map key).Nodup) :
    ((prevailing general own).map key).Nodup := by
  rw [prevailing, List.map_append]
  refine List.Nodup.append (distinct.sublist (List.filter_sublist.map _)) distinctOwn ?_
  intro k spoken
  obtain ⟨x, mem, rfl⟩ := List.mem_map.1 spoken
  have unspoken : x.key ∉ own.map key := of_decide_eq_true (List.mem_filter.1 mem).2
  exact unspoken

theorem prevailing_perm {general' own' : List Setting} (perm : general.Perm general')
    (permOwn : own.Perm own') : (prevailing general own).Perm (prevailing general' own') := by
  have same : (fun x : Setting => decide (x.key ∉ own.map key)) =
      fun x => decide (x.key ∉ own'.map key) := by
    funext x
    rw [decide_eq_decide, (permOwn.map key).mem_iff]
  rw [prevailing, prevailing, same]
  exact (perm.filter _).append permOwn

namespace Source

/-- The source with all of these set, one after another. -/
def setAll (s : Source) (settings : List Setting) : Source :=
  settings.foldl (fun s x => x.apply s) s

theorem setAll_append (s : Source) (before after : List Setting) :
    s.setAll (before ++ after) = (s.setAll before).setAll after :=
  List.foldl_append

/-- The order of settings does not matter where each is of another key. -/
theorem setAll_perm {settings settings' : List Setting} (perm : settings.Perm settings')
    (distinct : (settings.map key).Nodup) (s : Source) :
    s.setAll settings = s.setAll settings' := by
  apply perm.foldl_eq'
  intro x memX y memY s
  by_cases same : x.key = y.key
  · rw [List.inj_on_of_nodup_map distinct memX memY same]
  · exact Setting.apply_comm same s

/-- Nothing is left of a setting when others follow that speak of the same. -/
theorem setAll_absorb {x : Setting} {settings : List Setting} (spoken : x.key ∈ settings.map key)
    (s : Source) : (x.apply s).setAll settings = s.setAll settings := by
  induction settings generalizing s with
  | nil => cases spoken
  | cons y settings ih =>
    show (y.apply (x.apply s)).setAll settings = (y.apply s).setAll settings
    by_cases same : x.key = y.key
    · rw [Setting.apply_absorb same]
    · rw [Setting.apply_comm same]
      exact ih ((List.mem_cons.1 spoken).resolve_left same) (y.apply s)

theorem setAll_prevailing (s : Source) (general own : List Setting) :
    s.setAll (general ++ own) = s.setAll (prevailing general own) := by
  induction general generalizing s with
  | nil => rfl
  | cons x general ih =>
    show (x.apply s).setAll (general ++ own) = _
    rw [ih, prevailing, prevailing]
    -- Is `x` filtered out, then what follows absorbs it.
    by_cases spoken : x.key ∈ own.map key
    · rw [List.filter_cons_of_neg (by simpa using spoken)]
      apply setAll_absorb
      rw [List.map_append]
      exact List.mem_append_right _ spoken
    · rw [List.filter_cons_of_pos (by simpa using spoken)]
      rfl

end Source

end Winning

/-! ## From a component -/

/-- What a project's defaults set. -/
def Defaults.settings (d : Defaults) : List Setting :=
  d.mode.toList.map .mode ++ d.encapsulation.toList.map .encapsulation ++
    d.keepSelectors.toList.map .keepSelectors ++ d.format.toList.map .format ++
    d.sourceMap.toList.map .sourceMap ++ d.vendorPrefixes.toList.map .vendorPrefixes

/-- What a component sets. -/
def Component.settings (c : Component) : List Setting :=
  c.tag.toList.map .tag ++ c.mode.toList.map .mode ++ c.encapsulation.toList.map .encapsulation

theorem Setting.keys_sublist {α : Type} (k : String) (make : α → Setting)
    (own : ∀ a, (make a).key = k) (o : Option α) :
    ((o.toList.map make).map Setting.key).Sublist [k] := by
  cases o with
  | none => exact List.nil_sublist _
  | some a => rw [← own a]; exact List.Sublist.refl _

theorem Defaults.nodup_settings (d : Defaults) : (d.settings.map Setting.key).Nodup := by
  refine List.Nodup.sublist ?_ (by decide : Defaults.keys.Nodup)
  simp only [settings, List.map_append]
  exact (((((Setting.keys_sublist "mode" .mode (fun _ => rfl) _).append
    (Setting.keys_sublist "encapsulation" .encapsulation (fun _ => rfl) _)).append
    (Setting.keys_sublist "commentOriginalSelector" .keepSelectors (fun _ => rfl) _)).append
    (Setting.keys_sublist "module" .format (fun _ => rfl) _)).append
    (Setting.keys_sublist "sourceMap" .sourceMap (fun _ => rfl) _)).append
    (Setting.keys_sublist "autoprefixer" .vendorPrefixes (fun _ => rfl) _)

theorem Component.nodup_settings (c : Component) : (c.settings.map Setting.key).Nodup := by
  refine List.Nodup.sublist ?_ (by decide : ["tag", "mode", "encapsulation"].Nodup)
  simp only [settings, List.map_append]
  exact ((Setting.keys_sublist "tag" .tag (fun _ => rfl) _).append
    (Setting.keys_sublist "mode" .mode (fun _ => rfl) _)).append
    (Setting.keys_sublist "encapsulation" .encapsulation (fun _ => rfl) _)

namespace Source

theorem setAll_defaults (s : Source) (d : Defaults) :
    s.setAll d.settings =
      { s with
        mode := d.mode.or s.mode
        encapsulation := d.encapsulation.getD s.encapsulation
        keepSelectors := d.keepSelectors.getD s.keepSelectors
        format := d.format.getD s.format
        sourceMap := d.sourceMap.getD s.sourceMap
        vendorPrefixes := d.vendorPrefixes.getD s.vendorPrefixes } := by
  obtain ⟨_ | _, _ | _, _ | _, _ | _, _ | _, _ | _⟩ := d <;> rfl

theorem setAll_component (s : Source) (c : Component) :
    s.setAll c.settings =
      { s with
        tag := c.tag.or s.tag
        mode := c.mode.or s.mode
        encapsulation := c.encapsulation.getD s.encapsulation } := by
  obtain ⟨_ | _, _ | _, _ | _⟩ := c <;> rfl

/-- A component's source is the plain one with what the defaults set and then what the component
sets. -/
theorem ofComponent_eq_setAll (defaults : Option Defaults) (file : Path) (css : String)
    (component : Component) :
    ofComponent defaults file css component =
      (plain file css).setAll ((defaults.getD {}).settings ++ component.settings) := by
  rw [setAll_append, setAll_defaults, setAll_component]
  simp only [ofComponent, Defaults.source, plain, Option.or_none, Option.getD_or]

/-! ## From JSON -/

/-- The fields of a source at `file` of which nothing is said but these settings. -/
def fieldsOf (file : Path) (css : String) (settings : List Setting) : Fields :=
  ("file", .ofText file.text) :: ("input", .ofText css) :: settings.map Setting.field

section FieldsOf

variable {file : Path} {css : String} {settings : List Setting}

theorem keys_fieldsOf : (fieldsOf file css settings).map Prod.fst =
    "file" :: "input" :: settings.map key := by
  rw [fieldsOf, List.map_cons, List.map_cons, List.map_map]
  rfl

theorem nodup_fieldsOf (distinct : (settings.map key).Nodup) :
    ((fieldsOf file css settings).map Prod.fst).Nodup := by
  have own : ∀ k ∈ settings.map key, k ∈ "tag" :: Defaults.keys :=
    List.forall_mem_map.2 fun x _ => x.key_mem
  rw [keys_fieldsOf, List.nodup_cons, List.nodup_cons, List.mem_cons, not_or]
  exact ⟨⟨by decide, fun mem => absurd (own _ mem) (by decide)⟩,
    fun mem => absurd (own _ mem) (by decide), distinct⟩

theorem fieldsOf_subset : (fieldsOf file css settings).map Prod.fst ⊆ keys := by
  rw [keys_fieldsOf]
  refine List.cons_subset_cons _ (List.cons_subset_cons _ ?_)
  intro k mem
  obtain ⟨x, _, rfl⟩ := List.mem_map.1 mem
  exact x.key_mem

theorem written_fieldsOf : ∀ field ∈ fieldsOf file css settings, Written field.2 := by
  rw [fieldsOf, List.forall_mem_cons, List.forall_mem_cons]
  exact ⟨.text _, .text _, List.forall_mem_map.2 fun x _ => x.written⟩

end FieldsOf

/-- A source is read from what is found under its keys, in whatever order the fields stand. -/
theorem ofJson?_perm {fields fields' : Fields} (perm : fields.Perm fields')
    (distinct : (fields.map Prod.fst).Nodup) (known : fields.map Prod.fst ⊆ keys) :
    ofJson? (.ofFields fields) = ofJson? (.ofFields fields') := by
  have permKeys : (fields.map Prod.fst).Perm (fields'.map Prod.fst) := perm.map _
  rw [ofJson?, ofJson?, Json.fields?_ofFields distinct known,
    Json.fields?_ofFields (permKeys.nodup distinct) (List.Subset.trans permKeys.symm.subset known)]
  simp only [Option.bind_eq_bind, Option.bind_some, Fields.required, Fields.optional,
    Fields.orElse, Json.lookup_perm perm distinct]

/-- One field more is one setting more. -/
theorem ofJson?_concat {fields : Fields} {x : Setting}
    (distinct : ((fields ++ [x.field]).map Prod.fst).Nodup)
    (known : (fields ++ [x.field]).map Prod.fst ⊆ keys) :
    ofJson? (.ofFields (fields ++ [x.field])) = (ofJson? (.ofFields fields)).map x.apply := by
  have before : (fields.map Prod.fst).Sublist ((fields ++ [x.field]).map Prod.fst) :=
    (List.sublist_append_left _ _).map _
  have there : (fields ++ [x.field]).lookup x.key = some x.value :=
    (Json.lookup_eq_some_iff_mem distinct).2 (List.mem_append_right _ List.mem_cons_self)
  have elsewhere : ∀ k, k ≠ x.key → (fields ++ [x.field]).lookup k = fields.lookup k := by
    intro k other
    rw [List.lookup_append, Setting.field, List.lookup_cons, beq_eq_false_iff_ne.2 other,
      List.lookup_nil, Option.or_none]
  have absent : fields.lookup x.key = none := by
    rw [List.lookup_eq_none_iff]
    intro field mem
    rw [List.map_append, List.nodup_append] at distinct
    exact bne_iff_ne.2 (distinct.2.2 _ (List.mem_map_of_mem mem) _ List.mem_cons_self).symm
  rw [ofJson?, ofJson?, Json.fields?_ofFields distinct known,
    Json.fields?_ofFields (distinct.sublist before) (List.Subset.trans before.subset known)]
  generalize fields ++ [x.field] = more at there elsewhere
  simp only [Option.bind_eq_bind, Option.bind_some, Fields.required, Fields.optional,
    Fields.orElse]
  -- Under the key of `x` the one record falls back on what the other one reads.
  cases x <;> simp only [key, Setting.value] at there elsewhere absent <;>
    simp [there, elsewhere, absent, Lossless.text.nullable?_write,
      Lossless.bool.read_write, Encapsulation.lossless.read_write, Format.lossless.read_write,
      Option.map_bind, Function.comp_def, Setting.apply] <;>
    rfl

theorem ofJson?_fieldsOf (file : Path) (css : String) {settings : List Setting}
    (distinct : (settings.map key).Nodup) :
    ofJson? (.ofFields (fieldsOf file css settings)) =
      some ((plain file css).setAll settings) := by
  -- The induction is from the end, where the last field is the last thing set.
  induction settings using List.reverseRecOn with
  | nil =>
    rw [ofJson?, Json.fields?_ofFields (nodup_fieldsOf distinct) fieldsOf_subset,
      Option.bind_eq_bind, Option.bind_some, Lossless.text.required_eq file.text rfl,
      Lossless.text.required_eq css rfl]
    rfl
  | append_singleton settings x ih =>
    have concat : fieldsOf file css (settings ++ [x]) =
        fieldsOf file css settings ++ [x.field] := by
      rw [fieldsOf, List.map_append]
      rfl
    have before : (settings.map key).Nodup :=
      distinct.sublist ((List.sublist_append_left _ _).map _)
    rw [concat, ofJson?_concat (concat ▸ nodup_fieldsOf distinct) (concat ▸ fieldsOf_subset),
      ih before, setAll_append]
    rfl

/-- A component's source, with the project's defaults where it has any, is the plain one with each
of the defaults set and then each thing that the component sets, in whatever order; and it is what
is read from a JSON object, or from its text, that has the file, the stylesheet and those settings
that prevail for its fields, in whatever order. So it has the same mode of its own and the same
scope whichever way it came about; and where nothing is set, it is the plain source. -/
theorem ofComponent_agrees {defaults : Option Defaults} {component : Component} {file : Path}
    {css : String} {general own : List Setting} {fields : Fields}
    (generally : general.Perm (defaults.getD {}).settings) (owned : own.Perm component.settings)
    (told : fields.Perm (fieldsOf file css (prevailing general own))) :
    ofComponent defaults file css component = (plain file css).setAll (general ++ own) ∧
      ofJson? (.ofFields fields) = some (ofComponent defaults file css component) ∧
      (Json.parse? (Json.ofFields fields).render).bind ofJson? =
        some (ofComponent defaults file css component) ∧
      (general = [] → own = [] → ofComponent defaults file css component = plain file css) := by
  have distinct : (general.map key).Nodup :=
    (generally.map key).nodup_iff.2 (Defaults.nodup_settings _)
  have distinctOwn : (own.map key).Nodup := (owned.map key).nodup_iff.2 component.nodup_settings
  have single : ((prevailing general own).map key).Nodup := nodup_prevailing distinct distinctOwn
  have built : ofComponent defaults file css component =
      (plain file css).setAll (general ++ own) := by
    rw [ofComponent_eq_setAll, setAll_prevailing, setAll_prevailing]
    exact (setAll_perm (prevailing_perm generally owned) single _).symm
  have keysTold := told.map Prod.fst
  have read : ofJson? (.ofFields fields) = some (ofComponent defaults file css component) := by
    rw [ofJson?_perm told (keysTold.nodup_iff.2 (nodup_fieldsOf single))
        (List.Subset.trans keysTold.subset fieldsOf_subset),
      ofJson?_fieldsOf file css single, ← setAll_prevailing, built]
  have written : Written (.ofFields fields) :=
    Json.written_ofFields fun field mem => written_fieldsOf field (told.subset mem)
  refine ⟨built, read, ?_, ?_⟩
  · rw [Json.parse?_render written, Option.bind_some, read]
  · rintro rfl rfl
    exact built

theorem ofComponent_agrees_empty_mode :
    let defaults : Option Defaults :=
      some { mode := some "md", encapsulation := some .shadow, format := some .cjs }
    let component : Component := ⟨some "my-cmp", some "", some .scoped⟩
    let general : List Setting := [.format .cjs, .mode "md", .encapsulation .shadow]
    let own : List Setting := [.encapsulation .scoped, .mode "", .tag "my-cmp"]
    let fields := (fieldsOf ⟨"/d/a.css"⟩ ".a\x7b\x7d" (prevailing general own)).reverse
    general.Perm (defaults.getD {}).settings ∧ own.Perm component.settings ∧
      fields.map Prod.fst = ["tag", "mode", "encapsulation", "module", "input", "file"] ∧
      ofJson? (.ofFields fields) =
        some (ofComponent defaults ⟨"/d/a.css"⟩ ".a\x7b\x7d" component) := by
  intro defaults component general own fields
  have generally : general.Perm (defaults.getD {}).settings := by decide
  have owned : own.Perm component.settings := by decide
  have told : fields.Perm (fieldsOf ⟨"/d/a.css"⟩ ".a\x7b\x7d" (prevailing general own)) :=
    List.reverse_perm _
  exact ⟨generally, owned, by decide, (ofComponent_agrees generally owned told).2.1⟩

end Source

end StyleModule
