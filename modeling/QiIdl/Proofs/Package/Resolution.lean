import QiIdl.Proofs.Package.Coherent

/-!
# Kept resolutions are right

What a manager has kept about a reference is right in the manager as it is now, not only as it was when the
reference was resolved. Two things make it so: an answer is right when it is kept, which is part of the step that
keeps it, and no step takes away what made it right, since files and exports stay.

Callers may ask about references of files that a manager does not know. The answers to those are kept too, under
paths where another file may be, so the theorem is about callers that ask only about files they were given.
-/

namespace QiIdl

/-- The operation asks only about files that the manager knows. -/
def Operation.AsksKnown (m : Manager) : Operation → Prop
  | .resolveReference file _ _ => m.files.find? file.path = some file
  | _ => True

namespace Manager

variable {m m' : Manager} {asked : SourceFile → Node Mark → Prop}

/-- The node of a number in the file of a path is a reference, and means what a resolution says. -/
def Resolves (m : Manager) (path : Path) (id : Nat) (r : Resolution) : Prop :=
  ∃ f node, m.files.find? path = some f ∧ f.ast.nodes[id]? = some node ∧ m.Means 32 node r

theorem Steps.resolves {path : Path} {id : Nat} {r : Resolution} (h : Steps asked m m')
    (hr : m.Resolves path id r) : m'.Resolves path id r := by
  obtain ⟨f, node, hf, hnode, hmeans⟩ := hr
  exact ⟨f, node, h.find?_files hf, hnode, h.means hmeans⟩

/-- Everything that is kept is right. -/
def Sound (m : Manager) : Prop := ∀ path id r, m.resolution? path id = some r → m.Resolves path id r

theorem sound_empty : empty.Sound := nofun

theorem resolution?_keep (file : Path) (number : Nat) (r : Resolution) (path : Path) (id : Nat) :
    (m.keep file number r).resolution? path id =
      if path = file ∧ id = number then some r else m.resolution? path id := by
  unfold resolution?
  simp only [keep, Table.alter, Table.find?_insert]
  by_cases hpath : path = file
  · subst hpath
    cases ht : m.resolutions.find? path with
    | none => by_cases hid : id = number <;> simp [hid, Table.find?_insert, Table.find?]
    | some t => by_cases hid : id = number <;> simp [hid, Table.find?_insert]
  · simp [hpath]

/-- What is kept after a step was kept before, or is the answer that the step keeps. -/
theorem Step.resolution?_cases {path : Path} {id : Nat} {r : Resolution} (h : Step asked m m')
    (hr : m'.resolution? path id = some r) :
    m.resolution? path id = some r ∨
      ∃ file node, path = file.path ∧ id = node.tag.id ∧ m.Means Managed.aliasLimit node r ∧
        (asked file node ∨ (∃ name, file ∈ m.packageFiles name) ∧ node ∈ file.ast.customTypes) := by
  cases h with
  | addInclude i =>
    unfold resolution? at hr
    rw [addInclude_resolutions] at hr
    exact .inl hr
  | report => exact .inl hr
  | countRead => exact .inl hr
  | load =>
    unfold resolution? at hr
    rw [addFile_eq, addInclude_resolutions] at hr
    exact .inl hr
  | noteLocated => exact .inl hr
  | register hf =>
    obtain ⟨p, hp, -⟩ := mem_packageFiles.mp hf
    rw [registerFile_eq hp] at hr
    exact .inl hr
  | markLocated name count =>
    unfold Manager.markLocated at hr
    cases hp : m.packages.find? name with
    | none =>
      rw [hp] at hr
      exact .inl hr
    | some p =>
      rw [hp] at hr
      exact .inl hr
  | keep hmeans hfile =>
    rw [resolution?_keep] at hr
    split at hr
    · next heq =>
      cases hr
      exact .inr ⟨_, _, heq.1, heq.2, hmeans, hfile⟩
    · exact .inl hr

section

variable (hm : m.Coherent) (hasked : ∀ file node, asked file node →
  m.files.find? file.path = some file ∧ file.ast.nodes[node.tag.id]? = some node) (hsound : m.Sound)
include hm hasked hsound

/-- A step that asks only about nodes of known files keeps only what is right. -/
theorem Step.sound (h : Step asked m m') : m'.Sound := by
  intro path id r hr
  have hsteps : Steps asked m m' := .single h
  rcases h.resolution?_cases hr with hold | ⟨file, node, rfl, rfl, hmeans, hfile⟩
  · exact hsteps.resolves (hsound path id r hold)
  · refine hsteps.resolves ⟨file, node, ?_⟩
    rcases hfile with hfile | ⟨⟨name, hmem⟩, hnode⟩
    · obtain ⟨hfound, hnode⟩ := hasked file node hfile
      exact ⟨hfound, hnode, hmeans⟩
    · obtain ⟨p, hp, hmem⟩ := mem_packageFiles.mp hmem
      have hfound := (hm.find?_of_mem hp hmem).2
      exact ⟨hfound, Ast.getElem?_of_mem_customTypes (hm.laid hfound) hnode, hmeans⟩

theorem Steps.sound (h : Steps asked m m') : m'.Sound := by
  induction h with
  | refl => exact hsound
  | tail hsteps hstep ih =>
    refine hstep.sound (Steps.coherent hsteps hm) ?_ ih
    intro file node hfile
    obtain ⟨hfound, hnode⟩ := hasked file node hfile
    exact ⟨Steps.find?_files hsteps hfound, hnode⟩

end

/-- What an operation asks for has the number it is asked for by. -/
theorem Coherent.asks_known {op : Operation} {file : SourceFile} {node : Node Mark} (hm : m.Coherent)
    (hop : op.AsksKnown m) (hasks : op.Asks file node) :
    m.files.find? file.path = some file ∧ file.ast.nodes[node.tag.id]? = some node := by
  cases op with
  | resolveReference f package id =>
    obtain ⟨rfl, hnode⟩ := hasks
    have hid := (hm.laid hop).numbered id node hnode
    exact ⟨hop, hid ▸ hnode⟩
  | _ => exact hasks.elim

theorem Leads.sound (h : Leads Operation.AsksKnown empty m) : m.Sound := by
  induction h with
  | refl => exact sound_empty
  | @step m₁ disk op hleads hdisk hop ih =>
    have hsteps := hleads.steps named_empty
    have hcoherent := hsteps.coherent coherent_empty
    have hafter := op.steps_after hdisk (hsteps.named named_empty)
    exact Steps.sound hcoherent (fun _ _ hasks => hcoherent.asks_known hop hasks) ih hafter

/-- What is kept about a reference is right, and stays so whatever is done later, and no export is ever taken away
or changed. -/
theorem resolutions_stay_sound {allowed : Manager → Operation → Prop} (h : Leads Operation.AsksKnown empty m)
    (hlater : Leads allowed m m') :
    (∀ path id r, m.resolution? path id = some r → m'.Resolves path id r) ∧
      ∀ package name e, m.findExport package name = some e → m'.findExport package name = some e := by
  have hnamed := (h.steps named_empty).named named_empty
  have hsteps := hlater.steps hnamed
  exact ⟨fun path id r hr => hsteps.resolves (h.sound path id r hr), fun _ _ _ he => hsteps.findExport he⟩

/-- The answer that was kept is right also after the disk was emptied and another package was asked for. -/
theorem resolutions_stay_sound_ofLibrary :
    let later := (Operation.parsePackage "d").after ⟨.empty, []⟩ ofLibrary
    Leads Operation.AsksKnown empty ofLibrary ∧ Leads Operation.AsksKnown ofLibrary later ∧
      ofLibrary.resolution? ["lib", "b", "y.qi"] 2 = some ⟨"a", "Alias", .struct⟩ ∧
      later.Resolves ["lib", "b", "y.qi"] 2 ⟨"a", "Alias", .struct⟩ := by
  have hleads : Leads Operation.AsksKnown empty ofLibrary :=
    leads_ofLibrary (fun _ _ => trivial) (fun _ _ => trivial) (fun _ _ => trivial)
  have hkept : ofLibrary.resolution? ["lib", "b", "y.qi"] 2 = some ⟨"a", "Alias", .struct⟩ := by decide +kernel
  have hrefl : Leads Operation.AsksKnown ofLibrary ofLibrary := .refl
  have hlater := Leads.step ⟨.empty, []⟩ (.parsePackage "d") hrefl trivial trivial
  exact ⟨hleads, hlater, hkept, (resolutions_stay_sound hleads hlater).1 _ _ _ hkept⟩

end Manager
end QiIdl
