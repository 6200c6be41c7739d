import QiIdl.Proofs.Cpp.Mentioned

/-!
# When output can be made

Whether a type can be written in C++ depends on two things only: its references have answers, and its tuples are pairs.
Neither the kind of output nor the way a type is passed matters. So a header settles what the other kinds of output make
of the interfaces of a file: it writes every type that they declare (`ByValue.writable`), and it fails at statements
about object instances as they do. Registration alone fails at more, at constants and variables
(`declaresValue_of_registrationItems`).
-/

namespace QiIdl

namespace Cpp.Scope

variable {c : Scope} {n : Node Mark} {d : Interface Mark} {text : String}

/-! ## What a header has written -/

/-- C++ has a word for the node: if it is a reference it has an answer, and if it is a tuple type, it is a pair. -/
def Writable (c : Scope) (n : Node Mark) : Prop :=
  c.Answered n ∧ ∀ m elements, n = .type (.tuple m elements) → elements.length = 2

/-- What writes types for which there are words does not fail. -/
theorem keeps_writable : c.Keeps c.Writable fun _ => False :=
  ⟨fun _ _ h => failsIn_customName h.1, fun m elements h hlength => absurd (h.2 m elements rfl) hlength⟩

/-- Of nodes that are no types nothing is asked. -/
theorem writable_of_sort (sort : NodeSort) (h : n.sort = sort) (hsort : sort ≠ .customType ∧ sort ≠ .tupleType) :
    c.Writable n := by
  subst h
  refine ⟨fun h => absurd h hsort.1, ?_⟩
  rintro m elements rfl
  exact absurd rfl hsort.2

/-- Where the C++ type of a type is known there is a word for every part of it. -/
theorem ByValue.writable {t : TypeExpr Mark} (h : c.ByValue t text) : t.tree.Every c.Writable := by
  induction h with
  | builtin m t => exact .node (writable_of_sort .builtinType rfl (by decide)) nofun
  | custom name hr => exact .node ⟨fun _ => Option.isSome_of_eq_some hr, nofun⟩ nofun
  | list m _ ih => exact TypeExpr.every_list.mpr ⟨writable_of_sort .listType rfl (by decide), ih⟩
  | map m _ _ ihkey ihvalue =>
    exact TypeExpr.every_map.mpr ⟨writable_of_sort .mapType rfl (by decide), ihkey, ihvalue⟩
  | pair m _ _ ihfirst ihsecond =>
    refine TypeExpr.every_tuple.mpr ⟨⟨nofun, ?_⟩, by simpa using ⟨ihfirst, ihsecond⟩⟩
    rintro _ _ ⟨⟩
    rfl

/-- There is a word for every type in an interface that a header has been made of. -/
theorem allTypes_of_headerItem {steps : List Step} (h : c.headerItem (.interface d) = .ok steps) :
    AllTypes c.Writable d := by
  have hdeclared {t : TypeExpr Mark} (ht : (Node.interface d).Declares t) : t.tree.Every c.Writable := by
    obtain ⟨_, hvalue, -⟩ := writesLine_headerItem h ht
    exact hvalue.writable
  refine ⟨fun f hf => ?_, fun m hm p hp => hdeclared (.signal hm hp), fun m hm p hp => hdeclared (.property hm hp)⟩
  refine Fn.every_tree.mpr ⟨writable_of_sort .fn rfl (by decide), fun p hp => ?_, fun t ht => ?_⟩
  · exact hdeclared (.method hf (.param hp))
  · exact hdeclared (.method hf (.ret ht))

theorem objectStatement?_of_headerItem {steps : List Step} (h : c.headerItem n = .ok steps) :
    objectStatement? n = none := by
  unfold headerItem at h
  split at h
  case h_9 =>
    split at h
    · cases h
    · assumption
  all_goals rfl

/-- Where the header of a file has been made, nothing that stands in it fails of itself, whatever the kind of output. -/
theorem keepsAll_of_header {steps : List Step} (h : c.header = .ok steps) (backend : Backend) :
    ({ c with backend } : Scope).KeepsAll c.Writable fun _ => False := by
  obtain ⟨items, hitems, -⟩ := bind_eq_ok_iff.mp h
  refine { (keeps_writable : ({ c with backend } : Scope).Keeps _ _) with objects := ?_, interfaces := ?_ }
  · intro n hn construct hobject
    obtain ⟨_, -, hitem⟩ := exists_of_mapM hitems hn
    rw [objectStatement?_of_headerItem hitem] at hobject
    cases hobject
  · intro d hd
    obtain ⟨_, -, hitem⟩ := exists_of_mapM hitems (mem_interfaces.mp hd)
    exact allTypes_of_headerItem hitem

/-! ## Registration -/

theorem declaresValue_of_registrationItems {ns : List (Node Mark)} {number : Nat} {steps : List Step}
    {reports reports' : List Diagnostic} (h : c.registrationItems number ns reports = .ok steps reports') :
    ∀ n ∈ ns, declaresValue n = false := by
  induction ns generalizing number steps reports reports' with
  | nil => exact List.forall_mem_nil _
  | cons n ns ih =>
    obtain ⟨_, _, hitem, h⟩ := bind_eq_ok.mp h
    obtain ⟨_, _, hitems, -⟩ := bind_eq_ok.mp h
    refine List.forall_mem_cons.mpr ⟨?_, ih hitems⟩
    cases n with
    | const | var => cases hitem
    | _ => rfl

end Cpp.Scope

theorem Generate.Succeeds.of_failsIn {β : Type} {x : Generate β} {reports : List Diagnostic}
    (h : FailsIn (fun _ => False) x) : x.Succeeds reports := by
  cases hx : x reports with
  | ok b reports' => exact ⟨b, reports', hx⟩
  | error e reports' => exact (h reports e reports' hx).elim

/-! ## The kinds of output together -/

open Cpp.Scope Generate.Succeeds in
/-- Where the header of a file can be made, adapters, proxies and mocks can be made too, and the registration just if
the file declares no constant and no variable at its top. -/
theorem generate_of_header {m : Manager} {f : SourceFile} {width : Nat} {reports : List Diagnostic}
    (h : (generate .cppInterface m f width).Succeeds reports) (width' : Nat) (reports' : List Diagnostic) :
    (generate .cppLocal m f width').Succeeds reports' ∧
      (generate .cppRemote m f width').Succeeds reports' ∧
      (generate .cppGmock m f width').Succeeds reports' ∧
      ((generate .cppBind m f width').Succeeds reports' ↔ ∀ n ∈ f.ast.roots, declaresValue n = false) := by
  obtain ⟨_, _, houtput⟩ := h
  obtain ⟨_, hheader, -⟩ := exists_header_of_generate houtput
  have hc := keepsAll_of_header hheader
  refine ⟨?_, ?_, ?_, ?_, ?_⟩
  · exact of_failsIn (.map _ (failsIn_adapterFile (hc .cppLocal)))
  · exact of_failsIn (.map _ (.ofExcept (failsIn_proxyFile (hc .cppRemote))))
  · exact of_failsIn (.map _ (.ofExcept (failsIn_mockFile (hc .cppGmock))))
  · rintro ⟨_, _, hbind⟩
    obtain ⟨_, hfile, -⟩ := Generate.render_eq_ok.mp hbind
    obtain ⟨_, _, -, hfile⟩ := bind_eq_ok.mp hfile
    obtain ⟨_, _, hitems, -⟩ := bind_eq_ok.mp hfile
    exact declaresValue_of_registrationItems hitems
  · intro hvalues
    refine of_failsIn (.map _ (failsIn_registrationFile (hc .cppBind) fun n hn hvalue => ?_))
    rw [hvalues n hn] at hvalue
    cases hvalue

/-- A file with a method, a signal and a property, first without a value and then with a constant. -/
theorem generate_of_header_shop :
    let till := "package shop\ninterface Till\n fn pay(int, [](str, float))\n emit paid(int)\n prop open(bool)\nend\n"
    let file (ast : Ast) : SourceFile := ⟨["shop", "till.qi"], "shop", till, ast⟩
    (∃ ast, parseSource till "till.qi" = .ok ast ∧ (generate .cppInterface .empty (file ast) 2).Succeeds [] ∧
      (generate .cppBind .empty (file ast) 2).Succeeds []) ∧
    ∃ ast, parseSource (till ++ "const limit = 3\n") "till.qi" = .ok ast ∧
      (generate .cppInterface .empty (file ast) 2).Succeeds [] ∧
      (generate .cppGmock .empty (file ast) 2).Succeeds [] ∧
      ¬(generate .cppBind .empty (file ast) 2).Succeeds [] := by
  intro till file
  constructor
  · have hcheck : (parseSource till "till.qi").toOption.any (fun ast =>
        decide ((generate .cppInterface .empty (file ast) 2).Succeeds [] ∧
          ∀ n ∈ ast.roots, Cpp.Scope.declaresValue n = false)) = true := by decide +kernel
    obtain ⟨ast, hread, hast⟩ := exists_ok_of_any hcheck
    obtain ⟨hheader, hvalues⟩ := of_decide_eq_true hast
    exact ⟨ast, hread, hheader, (generate_of_header hheader 2 []).2.2.2.mpr hvalues⟩
  · have hcheck : (parseSource (till ++ "const limit = 3\n") "till.qi").toOption.any (fun ast =>
        decide ((generate .cppInterface .empty (file ast) 2).Succeeds [] ∧
          ¬∀ n ∈ ast.roots, Cpp.Scope.declaresValue n = false)) = true := by decide +kernel
    obtain ⟨ast, hread, hast⟩ := exists_ok_of_any hcheck
    obtain ⟨hheader, hvalues⟩ := of_decide_eq_true hast
    obtain ⟨-, -, hmock, hbind⟩ := generate_of_header hheader 2 []
    exact ⟨ast, hread, hheader, hmock, hbind.not.mpr hvalues⟩

end QiIdl
