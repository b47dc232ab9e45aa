import StyleModule.Defaults
import StyleModule.Product
import StyleModule.Proofs.Json.Lossless

/-!
# Records read back

Sources, products and what they consist of, and a project's defaults, are written without loss: a
record gives back every field, those it leaves out among them (`read_back`).
-/

namespace StyleModule

open Json (Lossless)

/-! ## Choices -/

theorem Level.lossless : Lossless (fun l : Level => .ofText l.name) (·.choice? Level.named) :=
  .choice fun l => by cases l <;> rfl

theorem Encapsulation.lossless : Lossless Encapsulation.toJson Encapsulation.ofJson? :=
  .choice fun e => by cases e <;> rfl

theorem Format.lossless : Lossless Format.toJson Format.ofJson? :=
  .choice fun f => by cases f <;> rfl

/-! ## Records -/

theorem Link.lossless : Lossless Link.toJson Link.ofJson? := by
  apply Lossless.record (by decide : keys.Nodup)
  case ordered => exact fun l => .refl _
  case each =>
    intro l
    simp only [List.forall_mem_cons]
    exact ⟨.text _, .text _, .text _, .text _, nofun⟩
  case back =>
    intro l
    rw [Lossless.text.required_eq l.statement rfl, Lossless.text.required_eq l.file.text rfl,
      Lossless.text.required_eq l.specifier rfl, Lossless.text.required_eq l.name rfl]
    rfl

theorem Diagnostic.lossless : Lossless Diagnostic.toJson Diagnostic.ofJson? := by
  apply Lossless.record (by decide : keys.Nodup)
  case ordered =>
    intro d
    simp only [List.map_append]
    exact (((List.Sublist.refl _).append (Json.map_fst_field?_sublist _ _ _)).append
      (Json.map_fst_field?_sublist _ _ _)).append (Json.map_fst_field?_sublist _ _ _)
  case each =>
    intro d
    simp only [List.forall_mem_append, List.forall_mem_cons]
    exact ⟨⟨⟨⟨.text _, .text _, .text _, .text _, nofun⟩,
      Json.written_field? (fun _ => .text _) _ _⟩, Json.written_field? Lossless.word.written _ _⟩,
      Json.written_field? Lossless.word.written _ _⟩
  case back =>
    intro d
    rw [Level.lossless.required_eq d.level rfl, Lossless.text.required_eq d.kind rfl,
      Lossless.text.required_eq d.header rfl, Lossless.text.required_eq d.message rfl,
      Lossless.text.optional_eq (d.file.map Path.text), Lossless.word.optional_eq d.line,
      Lossless.word.optional_eq d.column]
    · obtain ⟨level, kind, header, message, file, line, column⟩ := d
      cases file <;> rfl
    · simp [List.lookup_append, List.lookup_cons, Json.lookup_field?]
    · simp [List.lookup_append, List.lookup_cons, Json.lookup_field?]
    · simp [List.lookup_append, List.lookup_cons, Json.lookup_field?, Function.comp_def]

theorem Product.lossless : Lossless Product.toJson Product.ofJson? := by
  apply Lossless.record (by decide : keys.Nodup)
  case ordered => exact fun p => .refl _
  case each =>
    intro p
    simp only [List.forall_mem_cons]
    exact ⟨Diagnostic.lossless.list.written _, .text _, .text _,
      Lossless.text.written_ofNullable _, .text _, Link.lossless.list.written _, nofun⟩
  case back =>
    intro p
    rw [Diagnostic.lossless.list.required_eq p.diagnostics rfl,
      Lossless.text.required_eq p.text rfl, Lossless.text.required_eq p.output rfl,
      Lossless.text.optional_eq_of_nullable p.map rfl, Lossless.text.required_eq p.name rfl,
      Link.lossless.list.required_eq p.imports rfl]
    rfl

theorem Source.lossless : Lossless Source.toJson Source.ofJson? := by
  apply Lossless.record (by decide : keys.Nodup)
  case ordered => exact fun s => .refl _
  case each =>
    intro s
    simp only [List.forall_mem_cons]
    exact ⟨.text _, .text _, Lossless.text.written_ofNullable _, Lossless.text.written_ofNullable _,
      .text _, .bool _, .text _, .bool _, .bool _, nofun⟩
  case back =>
    intro s
    rw [Lossless.text.required_eq s.file.text rfl, Lossless.text.required_eq s.css rfl,
      Lossless.text.optional_eq_of_nullable s.tag rfl,
      Lossless.text.optional_eq_of_nullable s.mode rfl,
      Encapsulation.lossless.orElse_eq s.encapsulation rfl,
      Lossless.bool.orElse_eq s.keepSelectors rfl, Format.lossless.orElse_eq s.format rfl,
      Lossless.bool.orElse_eq s.sourceMap rfl, Lossless.bool.orElse_eq s.vendorPrefixes rfl]
    rfl

theorem Defaults.lossless : Lossless Defaults.toJson Defaults.ofJson? := by
  apply Lossless.record (by decide : keys.Nodup)
  case ordered =>
    intro d
    simp only [fields, List.map_append]
    exact (((((Json.map_fst_field?_sublist _ _ _).append (Json.map_fst_field?_sublist _ _ _)).append
      (Json.map_fst_field?_sublist _ _ _)).append (Json.map_fst_field?_sublist _ _ _)).append
      (Json.map_fst_field?_sublist _ _ _)).append (Json.map_fst_field?_sublist _ _ _)
  case each =>
    intro d
    simp only [fields, List.forall_mem_append]
    exact ⟨⟨⟨⟨⟨Json.written_field? .text _ _, Json.written_field? (fun _ => .text _) _ _⟩,
      Json.written_field? .bool _ _⟩, Json.written_field? (fun _ => .text _) _ _⟩,
      Json.written_field? .bool _ _⟩, Json.written_field? .bool _ _⟩
  case back =>
    intro d
    rw [Lossless.text.optional_eq d.mode, Encapsulation.lossless.optional_eq d.encapsulation,
      Lossless.bool.optional_eq d.keepSelectors, Format.lossless.optional_eq d.format,
      Lossless.bool.optional_eq d.sourceMap, Lossless.bool.optional_eq d.vendorPrefixes]
    · rfl
    all_goals simp [fields, List.lookup_append, Json.lookup_field?]

/-- Every record is read back from its compact text as it was: products, diagnostics, imported
stylesheets, sources and sets of defaults. -/
theorem read_back :
    (∀ p : Product, (Json.parse? p.toJson.render).bind Product.ofJson? = some p) ∧
      (∀ d : Diagnostic, (Json.parse? d.toJson.render).bind Diagnostic.ofJson? = some d) ∧
      (∀ l : Link, (Json.parse? l.toJson.render).bind Link.ofJson? = some l) ∧
      (∀ s : Source, (Json.parse? s.toJson.render).bind Source.ofJson? = some s) ∧
      ∀ d : Defaults, (Json.parse? d.toJson.render).bind Defaults.ofJson? = some d :=
  ⟨Product.lossless.read_render, Diagnostic.lossless.read_render, Link.lossless.read_render,
    Source.lossless.read_render, Defaults.lossless.read_render⟩

end StyleModule
