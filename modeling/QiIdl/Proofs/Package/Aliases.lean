import QiIdl.Proofs.Package.Lookup

/-!
# Names for names

A type name may stand for another type name, and so on. Resolving a reference follows them one by one and gives up
after so many; the count goes down where a name is followed, and is looked at only where an export is classified, so
how many names are followed exactly has to be proved (`resolveWithin_of_chain`, `resolveWithin_of_long`). What is
counted is `Manager.aliasAfter`, the name that so many plain names of one package lead to. A chain of names that ends
in a declaration is resolved if it is not too long. One that is, or that runs into a circle and so never ends, fails
where the count is up.
-/

namespace QiIdl

/-- The name that a type name stands for, if it is a plain one. -/
def Node.plainAlias? {α : Type} : Node α → Option String
  | .typedef ⟨_, _, .custom _ next⟩ => if '.' ∈ next.toList then none else some next
  | _ => none

namespace Manager

variable {m : Manager} {package name next last : String}

/-- The plain name that a type name of a package stands for. -/
def alias? (m : Manager) (package name : String) : Option String :=
  (m.findExport package name).bind (·.node.plainAlias?)

/-- The name that so many type names of a package lead to. -/
def aliasAfter (m : Manager) (package : String) : Nat → String → Option String
  | 0, name => some name
  | n + 1, name => (m.alias? package name).bind (m.aliasAfter package n)

theorem alias?_eq_some (h : m.alias? package name = some next) :
    ∃ e own decl tag, m.findExport package name = some e ∧ e.node = .typedef ⟨own, decl, .custom tag next⟩ ∧
      '.' ∉ next.toList := by
  obtain ⟨e, he, halias⟩ := Option.bind_eq_some_iff.mp h
  unfold Node.plainAlias? at halias
  split at halias
  · next own decl tag target hnode =>
    split at halias
    · cases halias
    · next hplain =>
      cases halias
      exact ⟨e, own, decl, tag, he, hnode, hplain⟩
  · cases halias

theorem aliasAfter_succ {n : Nat} (h : m.aliasAfter package (n + 1) name = some last) :
    ∃ next, m.alias? package name = some next ∧ m.aliasAfter package n next = some last :=
  Option.bind_eq_some_iff.mp h

theorem aliasAfter_add (i n : Nat) (name : String) :
    m.aliasAfter package (i + n) name = (m.aliasAfter package i name).bind (m.aliasAfter package n) := by
  induction i generalizing name with
  | zero => rw [Nat.zero_add, aliasAfter, Option.bind_some]
  | succ i ih =>
    rw [Nat.succ_add, aliasAfter, aliasAfter, Option.bind_assoc]
    exact congrArg _ (funext ih)

theorem exists_aliasAfter_of_le {n k : Nat} (hle : n ≤ k) (h : m.aliasAfter package k name = some last) :
    ∃ middle, m.aliasAfter package n name = some middle := by
  obtain ⟨rest, rfl⟩ := Nat.exists_eq_add_of_le hle
  rw [aliasAfter_add] at h
  obtain ⟨middle, hmiddle, -⟩ := Option.bind_eq_some_iff.mp h
  exact ⟨middle, hmiddle⟩

/-- Names that lead into a circle lead on for ever. -/
theorem exists_aliasAfter_of_circle {i j : Nat} {turn : String} (hlt : i < j)
    (hi : m.aliasAfter package i name = some turn) (hj : m.aliasAfter package j name = some turn) (n : Nat) :
    ∃ last, m.aliasAfter package n name = some last := by
  obtain ⟨round, rfl⟩ := Nat.exists_eq_add_of_lt hlt
  rw [Nat.add_assoc, aliasAfter_add, hi, Option.bind_some] at hj
  -- however often one goes round, one is where the circle was entered
  have hrounds (times : Nat) : m.aliasAfter package (i + times * (round + 1)) name = some turn := by
    induction times with
    | zero => rw [Nat.zero_mul, Nat.add_zero, hi]
    | succ times ih => rw [Nat.succ_mul, ← Nat.add_assoc, aliasAfter_add, ih, Option.bind_some, hj]
  refine exists_aliasAfter_of_le ?_ (hrounds n)
  exact Nat.le_trans (Nat.le_mul_of_pos_right n (Nat.succ_pos round)) (Nat.le_add_left _ i)

/-- A type name is a name, and has no dots. -/
theorem Regular.not_dot_mem_of_alias? (hm : Regular m) (h : m.alias? package name = some next) :
    '.' ∉ name.toList := by
  obtain ⟨e, own, decl, tag, he, hnode, -⟩ := alias?_eq_some h
  obtain ⟨hfile, -, hmem, hexported⟩ := hm.balanced.declared_of_findExport hm.coherent he
  rw [hnode] at hmem hexported
  cases hexported
  exact IsName.not_dot_mem (hm.coherent.every_sound hfile hmem).label

end Manager

namespace Managed

open Manager

variable {disk : Disk} {follow : Follow} {m : Manager} {file : SourceFile} {tag own : Mark} {limit k : Nat}
  {package name text last decl next : String} {location : Location} {e : Export} {kind : SymbolKind}

/-! ## One name -/

/-- A text refers to a plain name of a package from a file of the package: by the name alone, or with the package in
front if that is loaded. -/
def Names (m : Manager) (package name text : String) : Prop :=
  text = name ∨ m.Settled package ∧ text = package ++ "." ++ name

theorem resolveNode_eq_classify (hplain : '.' ∉ name.toList) (htext : Names m package name text)
    (he : m.findExport package name = some e) :
    resolveNode disk follow file package (.type (.custom tag text)) m =
      classify follow package e (file.ast.location (.type (.custom tag text))) m := by
  rcases htext with rfl | ⟨hsettled, rfl⟩
  · simp only [resolveNode, resolveName, Text.splitLast_of_not_mem hplain, get_bind_eq, he]
  · simp only [resolveNode, resolveName, Text.splitLast_snoc hplain]
    rw [resolveDotted_eq hsettled, choiceIn_of_some he, answer]

/-- What is followed with so many names to go. -/
def followWithin (disk : Disk) : Nat → Follow
  | 0 => none
  | limit + 1 => some (resolveWithin disk limit)

theorem resolveWithin_eq (node : Node Mark) :
    resolveWithin disk limit file package node = resolveNode disk (followWithin disk limit) file package node := by
  cases limit <;> rfl

/-- A type name means what the name means that it stands for, with one name less to go. -/
theorem classify_alias {r : Resolution} (hnode : e.node = .typedef ⟨own, decl, .custom tag next⟩)
    (hnext : resolveWithin disk limit e.file e.file.package (.type (.custom tag next)) m = .ok r m) :
    classify (followWithin disk (limit + 1)) package e location m = .ok ⟨package, e.name, r.kind⟩ m := by
  have hkind : kindOf (followWithin disk (limit + 1)) package e location m = .ok r.kind m := by
    simp only [kindOf, hnode, followWithin, bind_of_ok hnext]
    rfl
  rw [classify, bind_of_ok hkind]
  rfl

theorem classify_alias_error {error : PackageError} {m' : Manager}
    (hnode : e.node = .typedef ⟨own, decl, .custom tag next⟩)
    (hnext : resolveWithin disk limit e.file e.file.package (.type (.custom tag next)) m = .error error m') :
    classify (followWithin disk (limit + 1)) package e location m = .error error m' := by
  have hkind : kindOf (followWithin disk (limit + 1)) package e location m = .error error m' := by
    simp only [kindOf, hnode, followWithin, bind_of_error hnext]
  rw [classify, bind_of_error hkind]

/-- With no name to go, a type name is not a type. -/
theorem classify_alias_none (hnode : e.node = .typedef ⟨own, decl, .custom tag next⟩) :
    classify (followWithin disk 0) package e location m =
      .error (.resolution (Problem.notAType e.name package).message location)
        (m.report ((Problem.notAType e.name package).diagnostic location)) := by
  have hkind : kindOf (followWithin disk 0) package e location = unresolvable location (.notAType e.name package) := by
    simp only [kindOf, hnode, followWithin]
  rw [classify, hkind]
  rfl

/-! ## Chains of names -/

/-- A chain that is not too long is followed to its end. -/
theorem resolveWithin_of_chain (hm : Regular m) (hnamed : m.Named) (hk : k ≤ limit)
    (hchain : m.aliasAfter package k name = some last) (he : m.findExport package last = some e)
    (hkind : e.node.symbolKind? = some kind) (hplain : '.' ∉ name.toList) (htext : Names m package name text) :
    resolveWithin disk limit file package (.type (.custom tag text)) m = .ok ⟨package, name, kind⟩ m := by
  induction k generalizing name text file tag limit with
  | zero =>
    cases hchain
    rw [resolveWithin_eq, resolveNode_eq_classify hplain htext he, classify_of_symbolKind? hkind, hnamed _ _ _ he]
  | succ k ih =>
    obtain ⟨limit, rfl⟩ := Nat.exists_eq_succ_of_ne_zero (Nat.ne_of_gt (Nat.lt_of_lt_of_le (Nat.succ_pos k) hk))
    obtain ⟨next, halias, hrest⟩ := aliasAfter_succ hchain
    obtain ⟨first, own, decl, tag', hfirst, hnode, hnext⟩ := alias?_eq_some halias
    have hfollowed : resolveWithin disk limit first.file first.file.package (.type (.custom tag' next)) m =
        .ok ⟨package, next, kind⟩ m := by
      rw [hm.package_of_findExport hfirst]
      exact ih (Nat.le_of_succ_le_succ hk) hrest hnext (.inl rfl)
    rw [resolveWithin_eq, resolveNode_eq_classify hplain htext hfirst, classify_alias hnode hfollowed,
      hnamed _ _ _ hfirst]

/-- Something of a package is found not to be a type. This is reported, and nothing else happens. -/
def FailsAsNoType (package : String) (op : Managed Resolution) (m : Manager) : Prop :=
  ∃ blamed location, op m = .error (.resolution s!"'{blamed}' in package '{package}' is not a type" location)
    { m with diagnostics := m.diagnostics ++ [(Problem.notAType blamed package).diagnostic location] }

/-- A chain that goes on after as many names as may be followed is not followed to its end. -/
theorem resolveWithin_of_long (hm : Regular m) (hchain : m.aliasAfter package (limit + 1) name = some last)
    (htext : Names m package name text) :
    FailsAsNoType package (resolveWithin disk limit file package (.type (.custom tag text))) m := by
  induction limit generalizing name text file tag with
  | zero =>
    obtain ⟨next, halias, -⟩ := aliasAfter_succ hchain
    obtain ⟨first, own, decl, tag', hfirst, hnode, -⟩ := alias?_eq_some halias
    refine ⟨first.name, file.ast.location (.type (.custom tag text)), ?_⟩
    rw [resolveWithin_eq, resolveNode_eq_classify (hm.not_dot_mem_of_alias? halias) htext hfirst,
      classify_alias_none hnode]
    rfl
  | succ limit ih =>
    obtain ⟨next, halias, hrest⟩ := aliasAfter_succ hchain
    obtain ⟨first, own, decl, tag', hfirst, hnode, -⟩ := alias?_eq_some halias
    obtain ⟨blamed, location, hfailed⟩ :
        FailsAsNoType package (resolveWithin disk limit first.file package (.type (.custom tag' next))) m :=
      ih hrest (.inl rfl)
    rw [← hm.package_of_findExport hfirst] at hfailed
    refine ⟨blamed, location, ?_⟩
    rw [resolveWithin_eq, resolveNode_eq_classify (hm.not_dot_mem_of_alias? halias) htext hfirst,
      classify_alias_error hnode hfailed, hm.package_of_findExport hfirst]

theorem FailsAsNoType.resolveReference {node : Node Mark}
    (h : FailsAsNoType package (resolveWithin disk aliasLimit file package node) m) :
    FailsAsNoType package (resolveReference disk file package node) m := by
  obtain ⟨blamed, location, hfailed⟩ := h
  exact ⟨blamed, location, bind_of_error hfailed⟩

/-- Take any manager that operations lead to, and a reference to a type name from a file of its package. If type names
of the package lead from it to a declaration, the reference means the name, and what the declaration is, as long as
they are at most 32; if they are more, or if they lead into a circle, one of them is reported not to be a type, and
nothing is kept. -/
theorem resolveReference_of_aliases {allowed : Manager → Operation → Prop} (h : Leads allowed empty m) (disk : Disk)
    (file : SourceFile) (tag : Mark) (htext : Names m package name text) :
    (∀ k last e kind, 0 < k → m.aliasAfter package k name = some last → m.findExport package last = some e →
      e.node.symbolKind? = some kind →
      (k ≤ 32 → resolveReference disk file package (.type (.custom tag text)) m =
        .ok ⟨package, name, kind⟩ (m.keep file.path tag.id ⟨package, name, kind⟩)) ∧
      (32 < k → FailsAsNoType package (resolveReference disk file package (.type (.custom tag text))) m)) ∧
    ∀ i j turn, i < j → m.aliasAfter package i name = some turn → m.aliasAfter package j name = some turn →
      FailsAsNoType package (resolveReference disk file package (.type (.custom tag text))) m := by
  have hm := h.regular
  have hnamed := (h.steps named_empty).named named_empty
  refine ⟨fun k last e kind hpos hchain he hkind => ⟨fun hk => ?_, fun hk => ?_⟩, fun i j turn hlt hi hj => ?_⟩
  · obtain ⟨second, hsecond⟩ := exists_aliasAfter_of_le hpos hchain
    obtain ⟨next, halias, -⟩ := aliasAfter_succ hsecond
    have hwithin : resolveWithin disk aliasLimit file package (.type (.custom tag text)) m =
        .ok ⟨package, name, kind⟩ m :=
      resolveWithin_of_chain hm hnamed hk hchain he hkind (hm.not_dot_mem_of_alias? halias) htext
    exact resolveReference_eq_ok.mpr ⟨m, hwithin, rfl⟩
  · obtain ⟨middle, hmiddle⟩ := exists_aliasAfter_of_le hk hchain
    exact (resolveWithin_of_long hm hmiddle htext).resolveReference
  · obtain ⟨middle, hmiddle⟩ := exists_aliasAfter_of_circle hlt hi hj (aliasLimit + 1)
    exact (resolveWithin_of_long hm hmiddle htext).resolveReference

end Managed

/-- A disk with a package of two files, in which names lead to a struct and others into a circle. -/
def Disk.aliases : Disk :=
  ⟨.directory [("lib", .directory [("p", .directory [
    ("x.qi", .file (some "package p\ntypedef B A\nstruct C\nend\ntypedef Y X\n")),
    ("y.qi", .file (some "package p\ntypedef C B\ntypedef Z Y\ntypedef Y Z\n"))])])], []⟩

namespace Managed

open Manager

/-- The first of the names is asked for with its package in front. -/
theorem resolveReference_of_aliases_two :
    let m := (Operation.parsePackage "p").after .aliases <| (Operation.addInclude "/lib").after .aliases .empty
    Leads (fun _ _ => True) .empty m ∧ m.Settled "p" ∧ ∃ f, m.files.find? (["lib", "p", "y.qi"] : Path) = some f ∧
      m.aliasAfter "p" 2 "A" = some "C" ∧
      resolveReference .aliases f "p" (.type (.custom ⟨0, .point 0⟩ "p.A")) m =
        .ok ⟨"p", "A", .struct⟩ (m.keep f.path 0 ⟨"p", "A", .struct⟩) ∧
      m.aliasAfter "p" 1 "X" = some "Y" ∧ m.aliasAfter "p" 3 "X" = some "Y" ∧
      FailsAsNoType "p" (resolveReference .aliases f "p" (.type (.custom ⟨0, .point 0⟩ "X"))) m := by
  intro m
  have hdisk : Disk.aliases.root.WellNamed := by
    simp [Disk.aliases]
  have hleads : Leads (fun _ _ => True) .empty m := .step _ _ (.step _ _ .refl hdisk trivial) hdisk trivial
  have hcheck : m.Settled "p" ∧ (m.files.find? (["lib", "p", "y.qi"] : Path)).isSome = true ∧
      m.aliasAfter "p" 2 "A" = some "C" ∧
      ((m.findExport "p" "C").map (·.node.symbolKind?)) = some (some .struct) ∧
      m.aliasAfter "p" 1 "X" = some "Y" ∧ m.aliasAfter "p" 3 "X" = some "Y" := by decide +kernel
  obtain ⟨hsettled, hknown, hchain, hstruct, hi, hj⟩ := hcheck
  obtain ⟨f, hf⟩ := Option.isSome_iff_exists.mp hknown
  obtain ⟨e, he, hkind⟩ := Option.map_eq_some_iff.mp hstruct
  have hdotted : Names m "p" "A" "p.A" := .inr ⟨hsettled, rfl⟩
  have hplain : Names m "p" "X" "X" := .inl rfl
  have hends := resolveReference_of_aliases hleads .aliases f ⟨0, .point 0⟩ hdotted
  have hcircle := resolveReference_of_aliases hleads .aliases f ⟨0, .point 0⟩ hplain
  exact ⟨hleads, hsettled, f, hf, hchain, (hends.1 2 "C" e .struct (by decide) hchain he hkind).1 (by decide), hi, hj,
    hcircle.2 1 3 "Y" (by decide) hi hj⟩

end Managed
end QiIdl
