import QiIdl.Proofs.Grammar.ReadBack.File
import QiIdl.Proofs.Grammar.Twins

/-!
# The canonical form reads back

A file that was read is sound, so its canonical form is made of the tokens it should be made of, and these are
read as the same syntax. Two things stand in the way and are asked for: an infinite float has no literal, and the
values of a connection stand side by side with nothing but a blank between them.
-/

namespace QiIdl

theorem parseSource_of_parseTokens {source : String} (file : String) {toks : List Token}
    {roots : List (Node Mark)} {nodes : Arena} (hlex : lex source = .ok toks)
    (hread : parseTokens #[] toks = .ok (roots, nodes)) :
    parseSource source file = .ok ⟨file, LineIndex.ofText source.toList, nodes, roots⟩ := by
  simp only [parseSource, hlex, hread, bind, Except.bind, pure, Except.pure]

/-- The canonical form of a file, with any width of a level, reads back as the same syntax, if every float in it is
finite and the values of every connection may stand side by side. -/
theorem Ast.canonical_reads_back {source file : String} {ast : Ast} (h : parseSource source file = .ok ast)
    (hfinite : ∀ n, ast.Reaches n → n.IsFinite) (hapart : ∀ n, ast.Reaches n → n.Apart) (width : Nat)
    (file' : String) : ∃ again, parseSource (ast.canonical width) file' = .ok again ∧ ast.same again = true := by
  have hsound := parseSource_sound h
  have hlegible : ∀ n ∈ ast.roots, n.tree.Every Node.Legible := fun n hn =>
    (hsound n hn).2.and (Ast.every_of_reaches hfinite n hn)
  obtain ⟨toks, hlex, hkinds⟩ := Ast.lex_canonical (fun n hn => (hsound n hn).1) hlegible width
  obtain ⟨roots, nodes, hread, herase⟩ := parseTokens_kinds
    (fun n hn => ⟨(hsound n hn).1, (hsound n hn).2, Ast.every_of_reaches hapart n hn⟩) hkinds
  exact ⟨_, parseSource_of_parseTokens file' hlex hread, Ast.same_iff.mpr herase.symm⟩

/-- Documentation, an unnamed parameter, a prefix operator before an index, a float and a connection. -/
theorem Ast.canonical_reads_back_object :
    let source := "## Says.\nfn f(x int32, str) []str\nobject Robot \"r\"\n prop p -v[0x10] + 1.50\n at a !b\nend"
    ∃ ast again, parseSource source "r.qi" = .ok ast ∧ (∀ n, ast.Reaches n → n.IsFinite) ∧
      (∀ n, ast.Reaches n → n.Apart) ∧ parseSource (ast.canonical 2) "again.qi" = .ok again ∧
      ast.same again = true := by
  intro source
  have hcheck : (parseSource source "r.qi").toOption.any (fun ast =>
      decide ((∀ n, ast.Reaches n → n.IsFinite) ∧ ∀ n, ast.Reaches n → n.Apart)) = true := by decide +kernel
  obtain ⟨ast, hread, hnodes⟩ := exists_ok_of_any hcheck
  obtain ⟨hfinite, hapart⟩ := of_decide_eq_true hnodes
  obtain ⟨again, hagain, hsame⟩ := Ast.canonical_reads_back hread hfinite hapart 2 "again.qi"
  exact ⟨ast, again, hread, hfinite, hapart, hagain, hsame⟩

end QiIdl
