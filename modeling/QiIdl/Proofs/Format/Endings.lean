import QiIdl.Format.DocMap
import QiIdl.Proofs.Format.Same
import QiIdl.Proofs.Token.Endings

/-!
# Line ends make no difference

A text keeps its tokens when each line feed gets a carriage return before it, and only spans move. Spans are seen
neither by the grammar nor by the numbers, and none of the outputs shows them: documentation maps
(`Ast.concur_docMap`) are settled here, canonical forms and dumps were before. So the two texts are one file to
everything but places.
-/

namespace QiIdl

variable {α : Type}

/-! ## Documentation maps show no tags -/

/-- Two mappings come to the same, whatever is reported on the way. -/
def Concur {β : Type} (op op' : Reporting β) : Prop := ∀ reports reports', (op reports).1 = (op' reports').1

namespace Concur

variable {β γ δ : Type}

protected theorem pure {b b' : β} (h : b = b') : Concur (pure b) (pure b') := fun _ _ => h

protected theorem bind {op op' : Reporting β} {f f' : β → Reporting γ} (hop : Concur op op')
    (hf : ∀ b, Concur (f b) (f' b)) : Concur (op >>= f) (op' >>= f') := by
  intro reports reports'
  show (f (op reports).1 _).1 = (f' (op' reports').1 _).1
  rw [hop reports reports']
  exact hf _ _ _

theorem mapM {f f' : β → Reporting γ} {view : β → δ} (h : ∀ b b', view b = view b' → Concur (f b) (f' b')) :
    ∀ {bs bs' : List β}, bs.map view = bs'.map view → Concur (bs.mapM f) (bs'.mapM f')
  | [], [], _ => .pure rfl
  | b :: bs, b' :: bs', hbs => by
    obtain ⟨hb, hbs⟩ := List.cons.inj hbs
    rw [List.mapM_cons, List.mapM_cons]
    exact .bind (h b b' hb) fun _ => .bind (mapM h hbs) fun _ => .pure rfl

end Concur

theorem concur_readDoc {doc doc' : Option String} (h : doc = doc') (location location' : Location) :
    Concur (readDoc location doc) (readDoc location' doc') := by
  subst h
  cases doc with
  | none => exact .pure rfl
  | some text =>
    unfold readDoc
    dsimp only
    cases Doc.parse text with
    | ok d => exact fun _ _ => rfl
    | error e => exact fun _ _ => rfl

theorem Param.docMap_erase (doc : Option Doc) (params : List (Param α)) :
    Param.docMap doc (params.map Param.erase) = Param.docMap doc params := by
  have hnames : Param.names (params.map Param.erase) = Param.names params := by
    simp only [Param.names, List.zipIdx_map, List.map_map]
    rfl
  simp only [Param.docMap, hnames, List.zip_map_right, List.map_map, Function.comp_def, Param.erase, Prod.map,
    TypeExpr.written_erase, id]

theorem Fn.docMap_erase (doc : Option Doc) (d : Fn α) : d.erase.docMap doc = d.docMap doc := by
  simp [Fn.docMap, Fn.erase, Param.docMap_erase, Function.comp_def]

theorem Channel.docMap_erase (kind : String) (doc : Option Doc) (d : Channel α) :
    d.erase.docMap kind doc = d.docMap kind doc := by
  simp [Channel.docMap, Channel.erase, Param.docMap_erase]

theorem Member.concur_docMap (ast ast' : Ast) : ∀ m m' : Member Mark, m.erase = m'.erase →
    Concur (m.docMap ast) (m'.docMap ast')
  | .fn d, .fn d', h => by
    have hd := Member.fn.inj h
    obtain ⟨-, hname, -, -, hdoc⟩ := Fn.mk.inj hd
    refine .bind (concur_readDoc hdoc _ _) fun doc => .pure (Prod.ext hname ?_)
    show d.docMap doc = d'.docMap doc
    rw [← Fn.docMap_erase, hd, Fn.docMap_erase]
  | .emit d, .emit d', h | .prop d, .prop d', h => by
    have hd : d.erase = d'.erase := by injection h
    obtain ⟨-, hname, -, hdoc⟩ := Channel.mk.inj hd
    refine .bind (concur_readDoc hdoc _ _) fun doc => .pure (Prod.ext hname ?_)
    show d.docMap _ doc = d'.docMap _ doc
    rw [← Channel.docMap_erase, hd, Channel.docMap_erase]

theorem Interface.concur_docMap (ast ast' : Ast) (d d' : Interface Mark)
    (h : (Node.interface d).erase = (Node.interface d').erase) : Concur (d.docMap ast) (d'.docMap ast') := by
  obtain ⟨-, hname, hinherits, hmembers, hdoc⟩ := Interface.mk.inj (Node.interface.inj h)
  refine .bind (concur_readDoc hdoc _ _) fun doc =>
    .bind (.mapM (Member.concur_docMap ast ast') hmembers) fun members => .pure ?_
  rw [hname, hinherits]

/-- The interfaces of a file are there in its syntax. -/
theorem Ast.map_interfaces (ast : Ast) : ast.interfaces.map (fun d => (Node.interface d).erase) =
    (ast.roots.map Node.erase).filter fun n => n.sort == .interface := by
  unfold Ast.interfaces
  induction ast.roots with
  | nil => rfl
  | cons n ns ih =>
    rw [List.filterMap_cons, List.map_cons, List.filter_cons, n.sort_erase, ← ih]
    cases n with
    | literal l => cases l <;> rfl
    | expr e => cases e <;> rfl
    | type t => cases t <;> rfl
    | object o => cases o <;> rfl
    | _ => rfl

theorem Ast.concur_docMap {a b : Ast} (h : a.roots.map Node.erase = b.roots.map Node.erase) :
    Concur a.docMap b.docMap := by
  refine .bind (.mapM (Interface.concur_docMap a b) ?_) fun _ => .pure rfl
  rw [Ast.map_interfaces, Ast.map_interfaces, h]

/-! ## Line ends -/

/-- A text in which each line feed gets a carriage return before it has the same tokens but for their spans. If it was
accepted it still is, with the same nodes under the same numbers and the same at the top, again but for their spans; so
it has the same canonical form, dump and documentation map. -/
theorem parseSource_replaceChar_feed (source : String) :
    (∀ toks, lex source = .ok toks → ∃ toks', lex (Text.replaceChar '\n' "\r\n" source) = .ok toks' ∧
      toks'.map Token.kind = toks.map Token.kind) ∧
    ∀ file ast, parseSource source file = .ok ast →
      ∃ ast', parseSource (Text.replaceChar '\n' "\r\n" source) file = .ok ast' ∧
        ast'.nodes.map Node.outline = ast.nodes.map Node.outline ∧
        ast'.roots.map Node.outline = ast.roots.map Node.outline ∧
        (∀ width, ast'.canonical width = ast.canonical width) ∧ (∀ width, ast'.dump width = ast.dump width) ∧
        ∀ reports reports', (ast'.docMap reports').1 = (ast.docMap reports).1 := by
  refine ⟨fun toks => lex_replaceChar_feed, fun file ast h => ?_⟩
  obtain ⟨toks, hlex, hread, -, -⟩ := parseSource_eq_ok h
  obtain ⟨toks', hlex', hkinds⟩ := lex_replaceChar_feed hlex
  obtain ⟨roots, nodes, hread', htwins, hnodes⟩ := parseTokens_twins hlex hkinds.symm hread
  refine ⟨_, parseSource_of_parseTokens file hlex' hread', ?_⟩
  have hroots : roots.map Node.outline = ast.roots.map Node.outline :=
    (map_eq_of_forall₂ (fun _ _ h => h.twin.outline) htwins).symm
  -- all outputs are made from the syntax at the top, which the outlines show
  have hsyntax : roots.map Node.erase = ast.roots.map Node.erase :=
    (map_eq_of_forall₂ (fun _ _ h => h.twin.erase) htwins).symm
  exact ⟨hnodes.symm, hroots, Ast.canonical_congr hsyntax, Ast.dump_congr hsyntax,
    fun reports reports' => Ast.concur_docMap hsyntax reports' reports⟩

/-- Documentation, a comment before a line end that has a carriage return already, and lines that end inside
brackets. -/
theorem parseSource_replaceChar_feed_lamp :
    let source := "## A lamp.\ninterface Lamp # here\r\n fn set(on bool,\n  by int)\nend\nconst c = [1,\n\n2] # two\n"
    let returned := Text.replaceChar '\n' "\r\n" source
    ∃ toks toks' ast ast', returned ≠ source ∧ lex source = .ok toks ∧ lex returned = .ok toks' ∧
      toks'.map Token.kind = toks.map Token.kind ∧ parseSource source "lamp.qi" = .ok ast ∧
      parseSource returned "lamp.qi" = .ok ast' ∧ ast'.nodes.map Node.outline = ast.nodes.map Node.outline ∧
      ast'.roots.map Node.outline = ast.roots.map Node.outline ∧ ast'.canonical 2 = ast.canonical 2 ∧
      ast'.dump 2 = ast.dump 2 ∧ (ast'.docMap []).1 = (ast.docMap []).1 := by
  intro source returned
  have hlex : (lex source).toOption.any (fun toks => toks.length == 27) = true := by decide +kernel
  have hread : (parseSource source "lamp.qi").toOption.any (fun ast => ast.nodes.size == 9) = true := by decide +kernel
  obtain ⟨toks, hlex, -⟩ := exists_ok_of_any hlex
  obtain ⟨ast, hread, -⟩ := exists_ok_of_any hread
  obtain ⟨toks', hlex', hkinds⟩ := (parseSource_replaceChar_feed source).1 toks hlex
  obtain ⟨ast', hread', hnodes, hroots, hcanonical, hdump, hdoc⟩ :=
    (parseSource_replaceChar_feed source).2 "lamp.qi" ast hread
  exact ⟨toks, toks', ast, ast', by decide +kernel, hlex, hlex', hkinds, hread, hread', hnodes, hroots, hcanonical 2,
    hdump 2, hdoc [] []⟩

end QiIdl
