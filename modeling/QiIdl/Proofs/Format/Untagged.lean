import QiIdl.Format.Dump
import QiIdl.Proofs.Ast.Erase

/-!
# Tags are not written

Neither the canonical form of a piece of syntax nor its dump shows a tag. Both go down the syntax in the same way, so
this is one induction for the two.
-/

namespace QiIdl

variable {α : Type}

namespace TypeExpr

mutual

theorem written_erase : ∀ t : TypeExpr α, t.erase.canonical = t.canonical ∧ t.erase.sexp = t.sexp
  | .builtin .. | .custom .. => ⟨rfl, rfl⟩
  | .list _ element => by simp only [erase, canonical, sexp, written_erase element, and_self]
  | .map _ key value => by simp only [erase, canonical, sexp, written_erase key, written_erase value, and_self]
  | .tuple _ elements => by simp only [erase, canonical, sexp, writtenAll_erase elements, and_self]

theorem writtenAll_erase : ∀ ts : List (TypeExpr α),
    canonicalAll (eraseAll ts) = canonicalAll ts ∧ sexpAll (eraseAll ts) = sexpAll ts
  | [] => ⟨rfl, rfl⟩
  | t :: ts => by simp only [eraseAll, canonicalAll, sexpAll, written_erase t, writtenAll_erase ts, and_self]

end

end TypeExpr

namespace Literal

mutual

theorem written_erase : ∀ l : Literal α, l.erase.canonical = l.canonical ∧ l.erase.sexp = l.sexp
  | .bool .. | .int .. | .float .. | .string .. | .tuple _ [] => ⟨rfl, rfl⟩
  | .list _ items => by simp only [erase, canonical, sexp, writtenAll_erase items, and_self]
  | .tuple _ [item] => by simp only [erase, eraseAll, canonical, sexp, sexpAll, written_erase item, and_self]
  | .tuple _ (a :: b :: items) => by
    have hitems := writtenAll_erase (a :: b :: items)
    simp only [erase, eraseAll, canonical, sexp] at hitems ⊢
    simp only [hitems, and_self]
  | .dict _ entries => by simp only [erase, canonical, sexp, writtenEntries_erase entries, and_self]

theorem writtenAll_erase : ∀ ls : List (Literal α),
    canonicalAll (eraseAll ls) = canonicalAll ls ∧ sexpAll (eraseAll ls) = sexpAll ls
  | [] => ⟨rfl, rfl⟩
  | l :: ls => by simp only [eraseAll, canonicalAll, sexpAll, written_erase l, writtenAll_erase ls, and_self]

theorem writtenEntries_erase : ∀ es : List (Literal α × Literal α),
    canonicalEntries (eraseEntries es) = canonicalEntries es ∧ sexpEntries (eraseEntries es) = sexpEntries es
  | [] => ⟨rfl, rfl⟩
  | (key, value) :: rest => by
    simp only [eraseEntries, canonicalEntries, sexpEntries, written_erase key, written_erase value,
      writtenEntries_erase rest, and_self]

end

end Literal

namespace Expr

theorem isUnary_erase (e : Expr α) : e.erase.isUnary = e.isUnary := by
  cases e <;> rfl

mutual

theorem written_erase : ∀ e : Expr α, e.erase.canonical = e.canonical ∧ e.erase.sexp = e.sexp
  | .binary _ op left right => by
    have hl := written_erase left
    have hr := written_erase right
    cases op <;> simp only [erase, canonical, sexp, left.isUnary_erase, hl, hr, and_self]
  | .unary _ _ operand => by simp only [erase, canonical, sexp, written_erase operand, and_self]
  | .var .. => ⟨rfl, rfl⟩
  | .literal _ l => by simp only [erase, canonical, sexp, l.written_erase, and_self]
  | .call _ _ args => by simp only [erase, canonical, sexp, writtenAll_erase args, and_self]

theorem writtenAll_erase : ∀ es : List (Expr α),
    canonicalAll (eraseAll es) = canonicalAll es ∧ sexpAll (eraseAll es) = sexpAll es
  | [] => ⟨rfl, rfl⟩
  | e :: es => by simp only [eraseAll, canonicalAll, sexpAll, written_erase e, writtenAll_erase es, and_self]

end

end Expr

attribute [simp] TypeExpr.written_erase

@[simp] theorem Value.written_erase (v : Value α) : v.erase.canonical = v.canonical ∧ v.erase.sexp = v.sexp := by
  cases v with
  | literal l => exact l.written_erase
  | expr e => exact e.written_erase

@[simp] theorem Param.written_erase (p : Param α) : p.erase.canonical = p.canonical ∧ p.erase.sexp = p.sexp := by
  obtain ⟨name, type⟩ := p
  cases name <;> simp [Param.erase, Param.canonical, Param.sexp]

@[simp] theorem Param.canonicalAll_erase (params : List (Param α)) :
    canonicalAll (params.map Param.erase) = canonicalAll params := by
  simp [canonicalAll, Function.comp_def]

@[simp] theorem canonicalAnnotation_erase (type : Option (TypeExpr α)) :
    canonicalAnnotation (type.map TypeExpr.erase) = canonicalAnnotation type := by
  cases type <;> simp [ canonicalAnnotation]

@[simp] theorem canonicalInitial_erase (value : Option (Value α)) :
    canonicalInitial (value.map Value.erase) = canonicalInitial value := by
  cases value <;> simp [canonicalInitial]

@[simp] theorem Fn.written_erase (d : Fn α) : d.erase.canonical = d.canonical ∧ d.erase.sexp = d.sexp := by
  obtain ⟨_, name, params, ret, doc⟩ := d
  cases ret <;> simp [Fn.erase, Fn.canonical, Fn.sexp, Function.comp_def]

@[simp] theorem Channel.written_erase (keyword : String) (d : Channel α) :
    d.erase.canonical keyword = d.canonical keyword ∧ d.erase.sexp keyword = d.sexp keyword := by
  simp [Channel.erase, Channel.canonical, Channel.sexp, Function.comp_def]

@[simp] theorem Member.written_erase (m : Member α) : m.erase.canonical = m.canonical ∧ m.erase.sexp = m.sexp := by
  cases m <;> simp [Member.erase, Member.canonical, Member.sexp]

@[simp] theorem Field.written_erase (d : Field α) : d.erase.canonical = d.canonical ∧ d.erase.sexp = d.sexp := by
  simp [Field.erase, Field.canonical, Field.sexp, Function.comp_def, Option.toList_map]

@[simp] theorem EnumItem.written_erase (d : EnumItem α) :
    d.erase.canonical = d.canonical ∧ d.erase.sexp = d.sexp := by
  obtain ⟨_, name, meaning⟩ := d
  cases meaning <;> simp [EnumItem.erase, EnumMeaning.erase, EnumItem.canonical, EnumItem.sexp]

namespace ObjectItem

mutual

theorem written_erase : ∀ o : ObjectItem α, o.erase.canonical = o.canonical ∧ o.erase.dump = o.dump
  | .property .. | .connect .. => by simp [erase, canonical, dump, sexp]
  | .object _ _ _ _ body => by simp [erase, canonical, dump, writtenAll_erase body]

theorem writtenAll_erase : ∀ os : List (ObjectItem α),
    canonicalAll (eraseAll os) = canonicalAll os ∧ dumpAll (eraseAll os) = dumpAll os
  | [] => ⟨rfl, rfl⟩
  | o :: os => by simp only [eraseAll, canonicalAll, dumpAll, written_erase o, writtenAll_erase os, and_self]

end

end ObjectItem

namespace Node

/-- Neither a canonical form nor a dump shows tags. -/
theorem written_erase (n : Node α) : n.erase.canonical = n.canonical ∧ n.erase.dump = n.dump := by
  cases n with
  | literal l => simp [erase, canonical, canonicalText, dump, sexp, l.written_erase]
  | expr e => simp [erase, canonical, canonicalText, dump, sexp, e.written_erase]
  | package _ _ | imports _ | comment _ _ => exact ⟨rfl, rfl⟩
  | object o => simp [erase, canonical, dump, o.written_erase]
  | _ => simp [erase, canonical, canonicalText, dump, sexp, List.flatMap_map, Function.comp_def, Option.toList_map]

theorem canonicalTop_erase (n : Node α) : n.erase.canonicalTop = n.canonicalTop := by
  rw [canonicalTop, canonicalTop, isBlock, isBlock, n.written_erase.1, n.sort_erase]

end Node

end QiIdl
