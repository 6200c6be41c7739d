import QiIdl.Proofs.Package.Moves

/-!
# Errors on the way

Most operations end in the first error they meet. Where the references of a package are resolved, or several
packages are, an error is counted and the rest is done all the same; what the operation ends in is then not the
error itself. `Operation.causes` does what an operation does and gives all errors that are met on the way, so what
is said of every error can be said of them (`Operation.moves_causes`), and `Accounts` ties them to the one error
that a caller sees (`Operation.ends_run`).
-/

namespace QiIdl

open Manager

namespace Managed

variable {disk : Disk} {m : Manager} {name package : String} {refs : List (SourceFile × Node Mark)}

/-! ## References -/

/-- Resolves all references of some files of a package, and gives the errors of those that fail. -/
def failures (disk : Disk) (package : String) : List (SourceFile × Node Mark) → Managed (List PackageError)
  | [] => pure []
  | (file, node) :: rest => do
    let r ← attempt (resolveReference disk file package node)
    let others ← failures disk package rest
    pure (match r with | .ok _ => others | .error e => e :: others)

/-- What is counted are the errors. -/
theorem resolveAll_eq : resolveAll disk package refs = List.length <$> failures disk package refs := by
  induction refs with
  | nil => rfl
  | cons ref refs ih =>
    obtain ⟨file, node⟩ := ref
    simp only [resolveAll, failures, ih, map_bind, map_pure, bind_map_left]
    congr
    funext r
    congr
    funext others
    cases r <;> rfl

theorem resolveReference_eq_ok {m' : Manager} {file : SourceFile} {node : Node Mark} {r : Resolution} :
    resolveReference disk file package node m = .ok r m' ↔
      ∃ m₁, resolveWithin disk aliasLimit file package node m = .ok r m₁ ∧ m' = m₁.keep file.path node.tag.id r := by
  unfold resolveReference
  rw [bind_eq_ok]
  constructor
  · rintro ⟨_, m₁, hwithin, hkeep⟩
    cases hkeep
    exact ⟨m₁, hwithin, rfl⟩
  · rintro ⟨m₁, hwithin, rfl⟩
    exact ⟨r, m₁, hwithin, rfl⟩

/-- No reference fails if each can be resolved after those before it. -/
theorem failures_cons_eq_nil {m' : Manager} {ref : SourceFile × Node Mark} :
    failures disk package (ref :: refs) m = .ok [] m' ↔
      ∃ r m₁, resolveReference disk ref.1 package ref.2 m = .ok r m₁ ∧ failures disk package refs m₁ = .ok [] m' := by
  obtain ⟨file, node⟩ := ref
  rw [failures]
  cases hfirst : resolveReference disk file package node m with
  | ok r m₁ =>
    rw [bind_of_ok (attempt_of_ok hfirst), bind_eq_ok]
    constructor
    · rintro ⟨others, m₂, hrest, heq⟩
      cases heq
      exact ⟨r, m₁, rfl, hrest⟩
    · rintro ⟨_, _, heq, hrest⟩
      cases heq
      exact ⟨[], m', hrest, rfl⟩
  | error e m₁ =>
    rw [bind_of_ok (attempt_of_error hfirst), bind_eq_ok]
    constructor
    · rintro ⟨others, m₂, -, heq⟩
      cases heq
    · rintro ⟨_, _, heq, -⟩
      cases heq

theorem moves_failures :
    Ends (failures disk package refs) m (fun errors m' => Moves disk m errors m') fun _ _ => False := by
  induction refs generalizing m with
  | nil => exact .pure (.done m)
  | cons ref refs ih =>
    refine .bind moves_resolveReference.attempt ?_
    intro r m₁ hfirst
    refine .bind ih ?_
    intro others m' hrest
    cases r with
    | ok _ => exact .pure (Moves.trans hfirst hrest)
    | error e => exact .pure (Moves.trans hfirst hrest)

/-! ## Packages -/

/-- Loads a package and those it imports, and gives the references of its files. -/
def prepare (disk : Disk) (name : String) : Managed (List (SourceFile × Node Mark)) := do
  parsePackage disk name
  let imported := (((← get).packages.find? name).map (·.importedPackages)).getD []
  imported.forM fun (package, location) => loadPackage disk package location
  pure (references ((← get).packageFiles name))

theorem resolvePackage_eq : resolvePackage disk name = (do
    let errors ← prepare disk name >>= failures disk name
    if errors.length > 0 then throw (.failed name errors.length)) := by
  simp only [resolvePackage, prepare, resolveAll_eq, bind_assoc, pure_bind, bind_map_left]

theorem resolvePackage_eq_ok {m' : Manager} :
    resolvePackage disk name m = .ok () m' ↔
      ∃ refs m₁, prepare disk name m = .ok refs m₁ ∧ failures disk name refs m₁ = .ok [] m' := by
  rw [resolvePackage_eq, bind_eq_ok]
  constructor
  · rintro ⟨errors, m₂, hboth, hend⟩
    obtain ⟨refs, m₁, hprepare, hfailures⟩ := bind_eq_ok.mp hboth
    cases errors with
    | nil =>
      cases hend
      exact ⟨refs, m₁, hprepare, hfailures⟩
    | cons e errors => cases hend
  · rintro ⟨refs, m₁, hprepare, hfailures⟩
    exact ⟨[], m', bind_eq_ok.mpr ⟨refs, m₁, hprepare, hfailures⟩, rfl⟩

theorem moves_forM_loadPackage {imported : List (String × Location)} :
    MovesBy disk (imported.forM fun (package, location) => loadPackage disk package location) m := by
  induction imported generalizing m with
  | nil => exact .pure (.done m)
  | cons first imported ih => exact .bind moves_loadPackage fun _ _ => ih

theorem moves_prepare : MovesBy disk (prepare disk name) m :=
  .bind moves_loadPackage fun _ _ => .get_bind (MovesBy.bind moves_forM_loadPackage fun _ m' =>
    .get_bind (.pure (.done m')))

theorem runs_prepare {asked : SourceFile → Node Mark → Prop} (hdisk : disk.root.WellNamed) :
    Runs asked (prepare disk name) m fun refs m' => refs = references (m'.packageFiles name) := by
  refine .bind (runs_loadPackage hdisk) fun _ _ _ _ => ?_
  refine .get_bind ?_
  refine .bind (.forM fun _ _ _ _ => runs_loadPackage hdisk) fun _ _ _ _ => ?_
  exact .get_bind (.pure rfl)

/-- Resolves a package, and gives the errors on the way. -/
def errorsIn (disk : Disk) (name : String) : Managed (List PackageError) := do
  match ← attempt (prepare disk name) with
  | .ok refs => failures disk name refs
  | .error e => pure [e]

theorem moves_errorsIn :
    Ends (errorsIn disk name) m (fun errors m' => Moves disk m errors m') fun _ _ => False := by
  refine .bind moves_prepare.attempt ?_
  intro r m₁ hprepared
  cases r with
  | ok refs => exact moves_failures.mono (fun _ _ h => Moves.trans hprepared h) fun _ _ h => h
  | error e => exact .pure hprepared

/-- Resolves some packages, and gives the errors on the way. -/
def errorsInAll (disk : Disk) : List String → Managed (List PackageError)
  | [] => pure []
  | name :: names => do
    let first ← errorsIn disk name
    let others ← errorsInAll disk names
    pure (first ++ others)

theorem moves_errorsInAll {names : List String} :
    Ends (errorsInAll disk names) m (fun errors m' => Moves disk m errors m') fun _ _ => False := by
  induction names generalizing m with
  | nil => exact .pure (.done m)
  | cons name names ih =>
    refine .bind moves_errorsIn ?_
    intro first m₁ hfirst
    refine .bind ih ?_
    exact fun others m' hrest => .pure (hfirst.trans hrest)

end Managed

/-! ## What a caller sees -/

/-- An error is the one that was met, or the count of those that were met in one package. -/
def PackageError.Accounts (e : PackageError) (errors : List PackageError) : Prop :=
  ∃ own, own <:+: errors ∧ own ≠ [] ∧ (own = [e] ∨ ∃ package, e = .failed package own.length)

theorem PackageError.accounts_self (e : PackageError) : e.Accounts [e] :=
  ⟨[e], List.infix_rfl, List.cons_ne_nil _ _, .inl rfl⟩

namespace Managed

variable {disk : Disk} {m : Manager} {name : String}

theorem ends_resolvePackage :
    Ends (resolvePackage disk name) m (fun _ m' => errorsIn disk name m = .ok [] m')
      fun e m' => ∃ errors, errorsIn disk name m = .ok errors m' ∧ e.Accounts errors := by
  rw [resolvePackage_eq, errorsIn]
  cases hprepare : prepare disk name m with
  | error e m₁ =>
    rw [bind_of_ok (attempt_of_error hprepare)]
    exact .of_error (bind_of_error (bind_of_error hprepare)) ⟨[e], rfl, e.accounts_self⟩
  | ok refs m₁ =>
    rw [bind_of_ok (attempt_of_ok hprepare)]
    dsimp only
    obtain ⟨errors, m', hfailures, -⟩ : ∃ errors m', failures disk name refs m₁ = .ok errors m' ∧ _ :=
      moves_failures.exists_ok
    have hboth : (prepare disk name >>= failures disk name) m = .ok errors m' := by
      rw [bind_of_ok hprepare, hfailures]
    rw [hfailures]
    cases errors with
    | nil => exact .of_ok (by rw [bind_of_ok hboth]; rfl) rfl
    | cons e errors =>
      refine .of_error (by rw [bind_of_ok hboth]; rfl) ⟨e :: errors, rfl, e :: errors, ?_⟩
      exact ⟨List.infix_rfl, List.cons_ne_nil _ _, .inr ⟨name, rfl⟩⟩

/-- All packages are resolved, and the error is that of the first which fails. -/
theorem ends_resolvePackages {names : List String} :
    Ends (resolvePackages disk names) m
      (fun first m' => ∃ errors, errorsInAll disk names m = .ok errors m' ∧
        match first with
        | none => errors = []
        | some e => e.Accounts errors)
      fun _ _ => False := by
  induction names generalizing m with
  | nil => exact .pure ⟨[], rfl, rfl⟩
  | cons name names ih =>
    refine .bind ends_resolvePackage.attempt ?_
    intro r m₁ hfirst
    refine .bind ih ?_
    rintro others m' ⟨errors, hrest, hothers⟩
    cases r with
    | ok _ =>
      refine .pure ⟨errors, ?_, hothers⟩
      rw [errorsInAll, bind_of_ok hfirst, bind_of_ok hrest]
      rfl
    | error e =>
      obtain ⟨first, hfirst, own, hpart, hown⟩ := hfirst
      refine .pure ⟨first ++ errors, ?_, own, hpart.trans (List.prefix_append _ _).isInfix, hown⟩
      rw [errorsInAll, bind_of_ok hfirst, bind_of_ok hrest]
      rfl

end Managed

namespace Operation

open Managed

variable {disk : Disk} {m : Manager}

/-- Whether an operation goes on after errors. -/
def goesOn : Operation → Bool
  | resolvePackage _ | analyse _ => true
  | _ => false

/-- Does what an operation does, and gives the errors on the way. -/
def causes (disk : Disk) (op : Operation) : Managed (List PackageError) :=
  match op with
  | resolvePackage name | analyse (some name) => errorsIn disk name
  | analyse none => do errorsInAll disk (← get).packages.keys
  | op => do
    match ← attempt (op.run disk) with
    | .ok _ => pure []
    | .error e => pure [e]

/-- An operation that ends in its first error does what it does in moves. -/
theorem moves_run {op : Operation} (h : op.goesOn = false) : MovesBy disk (op.run disk) m := by
  cases op with
  | addInclude spelled => exact .of_ok rfl (.single (o := none) (.addInclude _))
  | parse input => exact moves_parse.map (g := fun _ => ()) fun _ _ h => h
  | parseFile spelled =>
    exact (reads_parseFile.map (g := fun _ => ()) fun _ _ h => h.1.moves).mono (fun _ _ h => h)
      fun _ _ h => .single (o := some _) (.refuse h)
  | parseDirectory spelled =>
    exact (ends_parseDirectory.map (g := fun _ => ()) fun _ _ h => h.1.moves).mono (fun _ _ h => h)
      fun _ _ h => h.moves
  | parsePackage name => exact moves_loadPackage
  | resolveReference file package id =>
    rw [run]
    split
    · exact moves_resolveReference.map (g := fun _ => ()) fun _ _ h => h
    · exact .pure (.done m)
  | resolvePackage name => cases h
  | analyse name => cases h

theorem causes_of_not_goesOn {op : Operation} (h : op.goesOn = false) : op.causes disk = (do
    match ← attempt (op.run disk) with
    | .ok _ => pure []
    | .error e => pure [e]) := by
  cases op <;> first | rfl | cases h

/-- The errors on the way are those of moves. -/
theorem moves_causes (op : Operation) :
    Ends (op.causes disk) m (fun errors m' => Moves disk m errors m') fun _ _ => False := by
  cases hop : op.goesOn with
  | false =>
    rw [causes_of_not_goesOn hop]
    refine .bind (moves_run hop).attempt ?_
    intro r m' h
    cases r with
    | ok _ => exact .pure h
    | error e => exact .pure h
  | true =>
    cases op with
    | resolvePackage name => exact moves_errorsIn
    | analyse name =>
      cases name with
      | some name => exact moves_errorsIn
      | none => exact .get_bind moves_errorsInAll
    | _ => cases hop

/-- An operation does what is done to find the errors on the way. It ends in one of them or counts them, or there
are none. -/
theorem ends_run (op : Operation) :
    Ends (op.run disk) m (fun _ m' => op.causes disk m = .ok [] m')
      fun e m' => ∃ errors, op.causes disk m = .ok errors m' ∧ e.Accounts errors ∧
        (op.goesOn = false → errors = [e]) := by
  cases hop : op.goesOn with
  | false =>
    rw [causes_of_not_goesOn hop]
    constructor
    · intro _ m' hrun
      rw [bind_of_ok (attempt_of_ok hrun)]
      rfl
    · intro e m' hrun
      refine ⟨[e], ?_, e.accounts_self, fun _ => rfl⟩
      rw [bind_of_ok (attempt_of_error hrun)]
      rfl
  | true =>
    cases op with
    | resolvePackage name =>
      refine ends_resolvePackage.mono (fun _ _ h => h) ?_
      exact fun _ _ ⟨errors, hcauses, he⟩ => ⟨errors, hcauses, he, nofun⟩
    | analyse name =>
      cases name with
      | some name =>
        refine ends_resolvePackage.mono (fun _ _ h => h) ?_
        exact fun _ _ ⟨errors, hcauses, he⟩ => ⟨errors, hcauses, he, nofun⟩
      | none =>
        refine .get_bind (.bind (ends_resolvePackages.mono (fun _ _ h => h) fun _ _ h => h.elim) ?_)
        rintro first m' ⟨errors, hcauses, hfirst⟩
        cases first with
        | none =>
          obtain rfl := hfirst
          exact .pure hcauses
        | some e => exact .throw ⟨errors, hcauses, hfirst, nofun⟩
    | _ => cases hop

/-- Whatever an operation does, it does in moves. -/
theorem moves_after (op : Operation) : ∃ errors, Moves disk m errors (op.after disk m) := by
  have hruns : Ends (op.run disk) m _ _ := op.ends_run
  unfold after
  cases hrun : op.run disk m with
  | ok u m' => exact ⟨[], op.moves_causes.ok _ _ (hruns.ok u m' hrun)⟩
  | error e m' =>
    obtain ⟨errors, hcauses, -⟩ := hruns.error e m' hrun
    exact ⟨errors, op.moves_causes.ok _ _ hcauses⟩

end Operation
end QiIdl
