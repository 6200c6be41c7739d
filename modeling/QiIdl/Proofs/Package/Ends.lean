import QiIdl.Package.Resolve
import QiIdl.Proofs.Bind

/-!
# How operations end

`Ends op m Q E` says how the operation `op` ends when it is started on `m`: with a result and a manager of which
`Q` holds, or with an error and a manager of which `E` holds. Both halves matter here, since an operation that
fails leaves what it has learnt so far.

Everything that resolves references is put together from a few things: it loads packages, looks up exports, and
answers or fails with a report. `Lookups` lists them as rules, and `Lookups.resolveWithin` is the one induction
over the text of the resolution: what the rules hold for holds for all of it. A lookup is made only in packages
that are `Ready`, which is whatever the rule for loading says of a package that was loaded.
-/

namespace QiIdl

namespace Managed

variable {β γ : Type} {op : Managed β} {m : Manager} {Q : β → Manager → Prop} {E : PackageError → Manager → Prop}

theorem attempt_of_ok {b : β} {m₁ : Manager} (h : op m = .ok b m₁) : attempt op m = .ok (.ok b) m₁ := by
  simp only [attempt, h]

theorem attempt_of_error {e : PackageError} {m₁ : Manager} (h : op m = .error e m₁) :
    attempt op m = .ok (.error e) m₁ := by
  simp only [attempt, h]

theorem get_bind_eq {f : Manager → Managed β} : (get >>= f) m = f m m := rfl

theorem ofDisk_of_ok {spelled : String} {x : Except DiskError β} {b : β} (h : x = .ok b) :
    ofDisk spelled x m = .ok b m := by
  rw [h]
  rfl

theorem fileAt_of_find? {disk : Disk} {path : Path} {f : SourceFile} (hf : m.files.find? path = some f) :
    fileAt disk path m = .ok f m := by
  rw [fileAt, get_bind_eq, hf]
  rfl

/-! ## Ends -/

/-- An operation ends with a result as it should be, or with an error as it should be. -/
structure Ends (op : Managed β) (m : Manager) (Q : β → Manager → Prop) (E : PackageError → Manager → Prop) :
    Prop where
  ok : ∀ b m', op m = .ok b m' → Q b m'
  error : ∀ e m', op m = .error e m' → E e m'

namespace Ends

theorem of_ok {b : β} {m' : Manager} (hop : op m = .ok b m') (hq : Q b m') : Ends op m Q E := by
  constructor
  · intro b' m'' h
    cases hop.symm.trans h
    exact hq
  · intro e m'' h
    cases hop.symm.trans h

theorem of_error {e : PackageError} {m' : Manager} (hop : op m = .error e m') (he : E e m') : Ends op m Q E := by
  constructor
  · intro b m'' h
    cases hop.symm.trans h
  · intro e' m'' h
    cases hop.symm.trans h
    exact he

/-- An operation that does not fail gives a result. -/
theorem exists_ok (h : Ends op m Q fun _ _ => False) : ∃ b m', op m = .ok b m' ∧ Q b m' := by
  cases hop : op m with
  | ok b m' => exact ⟨b, m', rfl, h.ok b m' hop⟩
  | error e m' => exact (h.error e m' hop).elim

protected theorem pure {b : β} (hq : Q b m) : Ends (pure b) m Q E := of_ok rfl hq

protected theorem throw {e : PackageError} (he : E e m) : Ends (throw e : Managed β) m Q E := of_error rfl he

theorem mono {Q' : β → Manager → Prop} {E' : PackageError → Manager → Prop} (hop : Ends op m Q E)
    (hq : ∀ b m', Q b m' → Q' b m') (he : ∀ e m', E e m' → E' e m') : Ends op m Q' E' :=
  ⟨fun b m' h => hq b m' (hop.ok b m' h), fun e m' h => he e m' (hop.error e m' h)⟩

protected theorem bind {f : β → Managed γ} {Q' : γ → Manager → Prop} (hop : Ends op m Q E)
    (hf : ∀ b m', Q b m' → Ends (f b) m' Q' E) : Ends (op >>= f) m Q' E := by
  cases h : op m with
  | ok b m' =>
    have hbind : (op >>= f) m = f b m' := bind_of_ok h
    have hrest := hf b m' (hop.ok b m' h)
    exact ⟨fun c m'' hc => hrest.ok c m'' (hbind ▸ hc), fun e m'' he => hrest.error e m'' (hbind ▸ he)⟩
  | error e m' => exact of_error (bind_of_error h) (hop.error e m' h)

theorem get_bind {f : Manager → Managed γ} {Q' : γ → Manager → Prop} (h : Ends (f m) m Q' E) :
    Ends (get >>= f) m Q' E :=
  ⟨fun b m' hb => h.ok b m' hb, fun e m' he => h.error e m' he⟩

theorem modify_bind {g : Manager → Manager} {f : Unit → Managed γ} {Q' : γ → Manager → Prop}
    (h : Ends (f ()) (g m) Q' E) : Ends (modify g >>= f) m Q' E :=
  ⟨fun b m' hb => h.ok b m' hb, fun e m' he => h.error e m' he⟩

protected theorem map {g : β → γ} {Q' : γ → Manager → Prop} (hop : Ends op m Q E)
    (hq : ∀ b m', Q b m' → Q' (g b) m') : Ends (op >>= fun b => pure (g b)) m Q' E :=
  hop.bind fun b m' h => .pure (hq b m' h)

/-- An attempt does not fail, and gives back how the operation ended. -/
protected theorem attempt (hop : Ends op m Q E) :
    Ends (attempt op) m (fun r m' => match r with | .ok b => Q b m' | .error e => E e m') fun _ _ => False := by
  cases h : op m with
  | ok b m' => exact of_ok (attempt_of_ok h) (hop.ok b m' h)
  | error e m' => exact of_ok (attempt_of_error h) (hop.error e m' h)

end Ends

/-! ## Testing how an operation ends -/

/-- Whether an operation succeeds, with a result and a manager that pass a test. -/
def succeedsWith (op : Managed β) (m : Manager) (test : β → Manager → Bool) : Bool :=
  match op m with
  | .ok b m' => test b m'
  | .error .. => false

theorem exists_of_succeedsWith {test : β → Manager → Bool} (h : succeedsWith op m test = true) :
    ∃ b m', op m = .ok b m' ∧ test b m' = true := by
  unfold succeedsWith at h
  cases hop : op m with
  | ok b m' => exact ⟨b, m', rfl, by simpa [hop] using h⟩
  | error e m' => simp [hop] at h

/-- Whether an operation fails, with an error and a manager that pass a test. -/
def failsWith (op : Managed β) (m : Manager) (test : PackageError → Manager → Bool) : Bool :=
  match op m with
  | .ok .. => false
  | .error e m' => test e m'

theorem exists_of_failsWith {test : PackageError → Manager → Bool} (h : failsWith op m test = true) :
    ∃ e m', op m = .error e m' ∧ test e m' = true := by
  unfold failsWith at h
  cases hop : op m with
  | ok b m' => simp [hop] at h
  | error e m' => exact ⟨e, m', rfl, by simpa [hop] using h⟩

/-! ## Resolving is loading and looking up -/

variable {disk : Disk} {Ready : Manager → String → Prop} {P : (β : Type) → Managed β → Manager → Prop}

/-- Rules by which a property of operations, each started on some manager, holds of all that resolves references.
Loading makes a package ready and leaves those ready that are; what is looked up is looked up in a package that is
ready, and belongs to a file of such a package. -/
structure Lookups (disk : Disk) (Ready : Manager → String → Prop) (P : (β : Type) → Managed β → Manager → Prop) :
    Prop where
  pure : ∀ {β : Type} (b : β) (m : Manager), P β (pure b) m
  unresolved : ∀ {β : Type} (d : Diagnostic) (m : Manager), d.isError = true → P β (unresolved d) m
  map : ∀ {β γ : Type} {op : Managed β} {m : Manager} (g : β → γ), P β op m →
    P γ (op >>= fun b => Pure.pure (g b)) m
  load : ∀ {β : Type} {f : Unit → Managed β} {m : Manager} (package : String) (location : Location),
    (∀ m', Ready m' package → (∀ name, Ready m name → Ready m' name) → P β (f ()) m') →
      P β (loadPackage disk package location >>= f) m
  find : ∀ {β : Type} {f : Option Export → Managed β} {m : Manager} (package name : String), Ready m package →
    (∀ found, (∀ e, found = some e → Ready m e.file.package) → P β (f found) m) →
      P β (get >>= fun s => f (s.findExport package name)) m

namespace Lookups

variable {follow : Follow} {package name : String} {location : Location}

theorem unresolvable (h : Lookups disk Ready P) (p : Problem) : P β (unresolvable location p) m :=
  h.unresolved _ _ rfl

/-- What follows a type name has the property wherever the package of its file is ready. -/
def Follows (Ready : Manager → String → Prop) (P : (β : Type) → Managed β → Manager → Prop) : Follow → Prop
  | none => True
  | some follow => ∀ file package node m, Ready m package → P _ (follow file package node) m

theorem kindOf {e : Export} (h : Lookups disk Ready P) (hfollow : Follows Ready P follow)
    (hready : Ready m e.file.package) : P _ (kindOf follow package e location) m := by
  unfold Managed.kindOf
  split
  · exact h.pure _ _
  · exact h.pure _ _
  · exact h.pure _ _
  · exact h.map _ (hfollow _ _ _ _ hready)
  · exact h.unresolvable _

theorem classify {e : Export} (h : Lookups disk Ready P) (hfollow : Follows Ready P follow)
    (hready : Ready m e.file.package) : P _ (classify follow package e location) m :=
  h.map _ (h.kindOf hfollow hready)

/-- What a package exports under a name is classified, and something else is done if there is nothing. -/
theorem classifyFound (name : String) (location : Location) (other : Managed Resolution)
    {body : Manager → Managed Resolution} (h : Lookups disk Ready P) (hfollow : Follows Ready P follow)
    (hready : Ready m package) (hother : P _ other m)
    (hbody : ∀ s, body s = (s.findExport package name).elim other (Managed.classify follow package · location)) :
    P _ (get >>= body) m := by
  rw [funext hbody]
  refine h.find (f := fun found => found.elim other _) package name hready fun found hfound => ?_
  cases found with
  | some e => exact h.classify hfollow (hfound e rfl)
  | none => exact hother

theorem resolveDotted (h : Lookups disk Ready P) (hfollow : Follows Ready P follow) :
    P _ (resolveDotted disk follow package name location) m := by
  refine h.load package location fun m' hready _ => ?_
  refine classifyFound name location (Managed.unresolvable location (.symbolNotFound name package)) h hfollow hready
    (h.unresolvable _) fun s => ?_
  cases s.findExport package name <;> rfl

theorem resolveImported {ast : Ast} {ds : List (Import Mark)} (h : Lookups disk Ready P)
    (hfollow : Follows Ready P follow) : P _ (resolveImported disk follow ast name location ds) m := by
  induction ds generalizing m with
  | nil => exact h.unresolvable _
  | cons d ds ih =>
    unfold Managed.resolveImported
    cases importOffers name d.scope with
    | mk offered listed =>
      cases offered with
      | false => exact ih
      | true =>
        refine h.load d.package _ fun m' hready _ => ?_
        refine classifyFound name location (if listed then
          Managed.unresolvable location (.symbolNotFound name d.package)
          else Managed.resolveImported disk follow ast name location ds) h hfollow hready ?_ fun s => ?_
        · cases listed with
          | true => exact h.unresolvable _
          | false => exact ih
        · cases s.findExport d.package name <;> rfl

theorem resolveName {file : SourceFile} (h : Lookups disk Ready P) (hfollow : Follows Ready P follow)
    (hready : Ready m package) : P _ (resolveName disk follow file package name location) m := by
  unfold Managed.resolveName
  split
  · exact h.resolveDotted hfollow
  · refine classifyFound name location (Managed.resolveImported disk follow file.ast name location file.imports) h
      hfollow hready (h.resolveImported hfollow) fun s => ?_
    cases s.findExport package name <;> rfl

theorem resolveNode {file : SourceFile} {node : Node Mark} (h : Lookups disk Ready P)
    (hfollow : Follows Ready P follow) (hready : Ready m package) :
    P _ (resolveNode disk follow file package node) m := by
  unfold Managed.resolveNode
  split
  · exact h.resolveName hfollow hready
  · exact h.unresolved _ _ rfl

/-- What the rules hold for holds for all that resolves a reference of a file in a package that is ready. -/
theorem resolveWithin (h : Lookups disk Ready P) (limit : Nat) (file : SourceFile) (package : String)
    (node : Node Mark) (m : Manager) (hready : Ready m package) :
    P _ (resolveWithin disk limit file package node) m := by
  -- the limit is what each type name on the way takes one off
  induction limit generalizing file package node m with
  | zero =>
    have hnone : Follows Ready P none := trivial
    exact h.resolveNode hnone hready
  | succ limit ih =>
    have hsome : Follows Ready P (some (Managed.resolveWithin disk limit)) := ih
    exact h.resolveNode hsome hready

end Lookups
end Managed
end QiIdl
