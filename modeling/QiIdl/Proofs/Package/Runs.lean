import QiIdl.Proofs.Package.Reading
import QiIdl.Proofs.Text.Pieces

/-!
# Loading runs in steps

`Runs asked op m Q` says that the operation `op`, started on `m`, leaves a manager that steps lead to, and that `Q`
holds of its result and that manager if it does not fail. The rules follow the way operations are put together;
with them each operation that loads files and packages is gone through once, in the order of its own text.
-/

namespace QiIdl

open Manager

variable {location : Location} {m' : Manager} {e : PackageError}

theorem head?_toList_append {s t : String} {c : Char} (h : s.toList.head? = some c) :
    (s ++ t).toList.head? = some c := by
  rw [String.toList_append, List.head?_append, h, Option.some_or]

theorem Diagnostic.isClash_eq_false {d : Diagnostic} {c : Char} (h : d.message.toList.head? = some c)
    (hc : c ≠ 's') : d.isClash = false := by
  unfold isClash
  cases hmessage : d.message.toList with
  | nil => rfl
  | cons first rest =>
    rw [hmessage, List.head?_cons, Option.some.injEq] at h
    simp [h, hc.symm]

/-- The words for a name that is taken are used for nothing else. -/
theorem Problem.isClash_diagnostic {p : Problem} (h : ∀ name previous, p ≠ .alreadyExported name previous) :
    (p.diagnostic location).isClash = false := by
  -- no other message starts with the same letter
  have starts : ∀ c : Char, p.message.toList.head? = some c → c ≠ 's' → (p.diagnostic location).isClash = false :=
    fun _ hhead hc => Diagnostic.isClash_eq_false (d := p.diagnostic location) hhead hc
  cases p with
  | missingPackage => exact starts 'm' rfl (by decide)
  | extraPackage =>
    refine starts 'e' ?_ (by decide)
    show "extra package declaration".toList.head? = some 'e'
    rfl
  | directoryMismatch =>
    refine starts 'p' ?_ (by decide)
    exact head?_toList_append (head?_toList_append (head?_toList_append (head?_toList_append rfl)))
  | alreadyExported name previous => exact absurd rfl (h name previous)
  | packageNotFound => exact starts 'C' (head?_toList_append (head?_toList_append rfl)) (by decide)
  | symbolNotFound =>
    refine starts 'C' ?_ (by decide)
    exact head?_toList_append (head?_toList_append (head?_toList_append (head?_toList_append rfl)))
  | notAType =>
    refine starts '\'' ?_ (by decide)
    exact head?_toList_append (head?_toList_append (head?_toList_append (head?_toList_append rfl)))
  | unresolved => exact starts 'C' (head?_toList_append (head?_toList_append rfl)) (by decide)

variable {asked : SourceFile → Node Mark → Prop} {β γ : Type} {op : Managed β} {m : Manager}
  {Q : β → Manager → Prop}

namespace Managed

/-- An operation leaves only managers that steps lead to, and what it gives back is as it should be. -/
abbrev Runs (asked : SourceFile → Node Mark → Prop) (op : Managed β) (m : Manager) (Q : β → Manager → Prop) : Prop :=
  Ends op m (fun b m' => Steps asked m m' ∧ Q b m') fun _ m' => Steps asked m m'

namespace Runs

protected theorem pure {b : β} (hq : Q b m) : Runs asked (pure b) m Q := .of_ok rfl ⟨.refl, hq⟩

protected theorem throw : Runs asked (throw e : Managed β) m Q := .of_error rfl .refl

protected theorem modify {f : Manager → Manager} (hsteps : Steps asked m (f m)) :
    Runs asked (modify f) m fun _ _ => True :=
  .of_ok rfl ⟨hsteps, trivial⟩

protected theorem bind {f : β → Managed γ} {Q' : γ → Manager → Prop} (hop : Runs asked op m Q)
    (hf : ∀ b m', Steps asked m m' → Q b m' → Runs asked (f b) m' Q') : Runs asked (op >>= f) m Q' := by
  refine Ends.bind hop ?_
  rintro b m' ⟨hsteps, hq⟩
  exact (hf b m' hsteps hq).mono (fun _ _ h => ⟨hsteps.trans h.1, h.2⟩) fun _ _ hsteps' => hsteps.trans hsteps'

theorem get_bind {f : Manager → Managed γ} {Q' : γ → Manager → Prop} (h : Runs asked (f m) m Q') :
    Runs asked (get >>= f) m Q' := Ends.get_bind h

protected theorem discard (hop : Runs asked op m Q) : Runs asked (discard op) m fun _ _ => True :=
  Runs.bind hop fun _ _ _ _ => .pure trivial

/-- A loop runs in steps if each of its turns does. -/
protected theorem forM {xs : List γ} {f : γ → Managed Unit}
    (hf : ∀ x ∈ xs, ∀ m', Steps asked m m' → Runs asked (f x) m' fun _ _ => True) :
    Runs asked (xs.forM f) m fun _ _ => True := by
  induction xs generalizing m with
  | nil => exact .pure trivial
  | cons x xs ih =>
    rw [List.forM]
    refine .bind (hf x List.mem_cons_self m .refl) ?_
    intro _ m' hsteps _
    exact ih fun y hy m'' hsteps' => hf y (List.mem_cons_of_mem _ hy) m'' (hsteps.trans hsteps')

protected theorem mapM {xs : List γ} {f : γ → Managed β}
    (hf : ∀ x ∈ xs, ∀ m', Runs asked (f x) m' fun _ _ => True) : Runs asked (xs.mapM f) m fun _ _ => True := by
  induction xs generalizing m with
  | nil =>
    rw [List.mapM_nil]
    exact .pure trivial
  | cons x xs ih =>
    rw [List.mapM_cons]
    refine .bind (hf x List.mem_cons_self m) fun _ _ _ _ => ?_
    refine .bind (ih fun y hy => hf y (List.mem_cons_of_mem _ hy)) fun _ _ _ _ => ?_
    exact .pure trivial

/-- What is done in any case is done after what is done only if something holds. -/
theorem after_if {c : Prop} {_ : Decidable c} {first : Managed Unit} {rest : Unit → Managed β}
    (hfirst : ∀ m, Runs asked first m fun _ _ => True) (hrest : ∀ m, Runs asked (rest ()) m Q) :
    Runs asked (if c then first >>= rest else rest ()) m Q := by
  split
  · exact .bind (hfirst m) fun _ m' _ _ => hrest m'
  · exact hrest m

/-- An attempt does not fail. -/
protected theorem attempt (hop : Runs asked op m Q) : Runs asked (attempt op) m fun _ _ => True := by
  refine (Ends.attempt hop).mono ?_ fun _ _ h => h.elim
  rintro (e | b) m' h
  · exact ⟨h, trivial⟩
  · exact ⟨h.1, trivial⟩

end Runs

/-! ## Reading files -/

theorem runs_report {d : Diagnostic} (h : d.isClash = false) :
    Runs asked (do modify (·.report d); throw e : Managed β) m Q :=
  .bind (.modify (.single (.report h))) fun _ _ _ _ => .throw

end Managed

theorem Manager.Rejects.steps (h : m.Rejects e m') : Steps asked m m' := by
  cases h with
  | unread => exact .refl
  | faulty => exact .single .countRead
  | misplaced hmisfits =>
    obtain ⟨location, hp⟩ := hmisfits
    exact (Relation.ReflTransGen.single .countRead).tail (.report (Problem.isClash_diagnostic hp))

theorem Manager.Gets.steps {disk : Disk} {path : Path} {f : SourceFile} (hdisk : disk.root.WellNamed)
    (h : m.Gets disk path f m') : Steps asked m m' := by
  cases h with
  | known => exact .refl
  | new hnew hpath hoffers =>
    -- the root is added and the file is loaded in one step
    exact (Relation.ReflTransGen.single .countRead).tail (.load (hpath ▸ hnew) (hoffers.placed hdisk))

namespace Managed

variable {name : String} {disk : Disk} (hdisk : disk.root.WellNamed)

include hdisk

theorem runs_parseFile {spelled : String} : Runs asked (parseFile disk spelled) m fun _ _ => True := by
  refine ends_parseFile.mono ?_ fun _ _ h => h.steps
  rintro f m' ⟨path, -, hgets⟩
  exact ⟨hgets.steps hdisk, trivial⟩

theorem runs_parseFound {path : Path} : Runs asked (parseFound disk path) m fun _ _ => True := by
  refine ends_parseFound.mono ?_ fun _ _ h => h.steps
  rintro f m' ⟨key, -, hgets⟩
  exact ⟨hgets.steps hdisk, trivial⟩

theorem runs_parseDirectory {spelled : String} : Runs asked (parseDirectory disk spelled) m fun _ _ => True :=
  .mapM fun _ _ _ => runs_parseFound hdisk

/-! ## Loading packages -/

omit hdisk in
theorem runs_locatedFiles : Runs asked (locatedFiles disk name) m fun _ _ => True := by
  have hsearch : ∀ count, Runs asked (locatedFiles.search disk name m count) m fun _ _ => True := by
    intro count
    exact .of_ok rfl ⟨.single (.noteLocated name _), trivial⟩
  unfold locatedFiles
  refine .get_bind ?_
  split
  · dsimp only
    split
    · exact .pure trivial
    · exact hsearch _
  · exact hsearch _

omit hdisk in
/-- Files of a package are registered one after the other. -/
theorem steps_registerFiles {files : List SourceFile} (h : ∀ f ∈ files, f ∈ m.packageFiles name) :
    Steps asked m (files.foldl (·.registerFile name) m) := by
  induction files generalizing m with
  | nil => exact .refl
  | cons f files ih =>
    obtain ⟨hf, hfiles⟩ := List.forall_mem_cons.mp h
    have hstep : Steps asked m (m.registerFile name f) := .single (.register hf)
    exact hstep.trans (ih fun g hg => hstep.mem_packageFiles (hfiles g hg))

theorem runs_readPackage : Runs asked (readPackage disk name location) m fun _ _ => True := by
  unfold readPackage
  refine .get_bind ?_
  refine .bind runs_locatedFiles fun paths _ _ _ => ?_
  refine .bind (.forM fun path _ _ _ => (runs_parseFound hdisk).discard) fun _ m' _ _ => ?_
  refine .get_bind ?_
  have hregister : Steps asked m' ((m'.packageFiles name).foldl (·.registerFile name) m') :=
    steps_registerFiles fun f hf => hf
  dsimp only
  split
  · exact .bind (.modify (.single (.report (Problem.isClash_diagnostic nofun))))
      fun _ _ _ _ => .bind .throw fun _ _ _ (h : False) => h.elim
  · exact .bind (.modify hregister) fun _ _ _ _ => .modify (.single (.markLocated name _))

theorem runs_loadPackage : Runs asked (loadPackage disk name location) m fun _ _ => True := by
  unfold loadPackage isLoaded
  refine .bind (.get_bind (.pure trivial)) fun _ m' _ (_ : True) => ?_
  refine .after_if (fun _ => runs_readPackage hdisk) fun m => ?_
  refine .get_bind ?_
  split
  · exact .throw
  · exact .pure trivial

theorem runs_parse {input : String} : Runs asked (parse disk input) m fun _ _ => True := by
  unfold parse
  split
  · exact .bind (runs_parseFile hdisk) fun _ _ _ _ => .pure trivial
  · split
    · exact runs_parseDirectory hdisk
    · exact .bind (runs_loadPackage hdisk) fun _ _ _ _ => .get_bind (.pure trivial)

end Managed
end QiIdl
