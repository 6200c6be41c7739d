import QiIdl.Proofs.Cpp.ByValue

/-!
# One switch for all types

The functions that write types are told how many scopes there are around them. Instead they can share a switch: each
looks at it when it needs to and changes it for a scope, and when the scope is left, by a result or by an error, the
counters are put back. As long as the counters count, that comes to the same (`Scope.reads_sharedTypeName`): writing a
type does nothing with the switch but read it.

But counters are words, and a word can be full. To raise it then is an overflow. A program that is built to check for
overflows stops there, and one that is not goes on with zero: it takes a switch that is blocked for one that is not, and
writes a reference in the middle of a type. So how often a switch was blocked before does matter, and just as far as the
type is deep (`Scope.depth`).
-/

namespace QiIdl

/-- Both counters can be raised so often without an overflow. -/
def Switch.HasRoom (s : Switch) (active blocked : Nat) : Prop :=
  s.active.toNat + active < UInt32.size ∧ s.blocked.toNat + blocked < UInt32.size

namespace Cpp

variable {β γ : Type} {checked : Bool}

/-- How writing is left without a result: by an error, or because the program stops. -/
inductive Exit where
  | failed (e : GenError)
  | stopped

/-- Writing with a switch that is shared: it can be read and changed, and is left behind however writing ends. -/
abbrev Sharing := EStateM Exit Switch

namespace Sharing

/-- What does not depend on the switch. -/
def give (x : Except GenError β) : Sharing β := fun s =>
  match x with
  | .ok b => .ok b s
  | .error e => .error (.failed e) s

/-- Raises a counter for a scope. However the scope is left, the counters are set to what they were before. A counter
that is zero after it was raised was full; a program that checks does not get as far. -/
def guarded (checked : Bool) (counter : Switch → UInt32) (raise : Switch → Switch) (x : Sharing β) : Sharing β := fun s =>
  if checked && counter (raise s) == 0 then .error .stopped s
  else
    match x (raise s) with
    | .ok b _ => .ok b s
    | .error e _ => .error e s

def blocking (checked : Bool) (x : Sharing β) : Sharing β := guarded checked Switch.blocked Switch.block x

/-- A type by constant reference, if the switch is on now. -/
def refer (type : String) : Sharing String := do
  let s ← get
  pure (if s.isOn then s!"const {type}&" else type)

/-! ## Reading the switch -/

/-- Writing is what is read off the switch, and leaves the switch as it was, where both counters can be raised as often
as is needed. Where they cannot, a program that checks stops. -/
structure Reads (checked : Bool) (p : Sharing β) (f : Guards → Except GenError β) (active blocked : Nat) : Prop where
  room : ∀ s : Switch, s.HasRoom active blocked → p s = give (f s.guards) s
  full : checked = true → ∀ s : Switch, ¬s.HasRoom active blocked → p s = .error .stopped s

variable {p : Sharing β} {q : β → Sharing γ} {f : Guards → Except GenError β} {g : β → Guards → Except GenError γ}
  {active blocked : Nat}

/-- Where nothing is raised there is always room. -/
theorem hasRoom_zero (s : Switch) : s.HasRoom 0 0 := ⟨s.active.toNat_lt, s.blocked.toNat_lt⟩

theorem Reads.of_forall (h : ∀ s, p s = give (f s.guards) s) : Reads checked p f 0 0 :=
  ⟨fun s _ => h s, fun _ s hs => absurd (hasRoom_zero s) hs⟩

theorem reads_give (x : Except GenError β) : Reads checked (give x) (fun _ => x) 0 0 := .of_forall fun _ => rfl

theorem reads_refer (type : String) : Reads checked (refer type) (fun s => pure (referred s type)) 0 0 := by
  refine .of_forall fun s => ?_
  have hactive : decide (0 < s.active.toNat) = decide (0 < s.active) := by simp [UInt32.lt_iff_toNat_lt]
  have hblocked : (s.blocked.toNat == 0) = (s.blocked == 0) := by
    rw [Bool.eq_iff_iff]
    simp [← UInt32.toNat_inj]
  have hon : s.guards.isOn = s.isOn := by rw [Guards.isOn, Switch.guards, hactive, hblocked, Switch.isOn]
  simp only [referred, hon]
  rfl

/-- What follows needs no room of its own. -/
theorem Reads.andThen (hp : Reads checked p f 0 blocked) (hq : ∀ b, Reads checked (q b) (g b) 0 0) :
    Reads checked (p >>= q) (fun s => f s >>= fun b => g b s) 0 blocked := by
  constructor
  · intro s hs
    show EStateM.bind p q s = _
    rw [EStateM.bind, hp.room s hs]
    cases f s.guards with
    | error e => rfl
    | ok b => exact (hq b).room s (hasRoom_zero s)
  · intro hchecked s hs
    show EStateM.bind p q s = _
    rw [EStateM.bind, hp.full hchecked s hs]

/-- What follows needs room, but only if there is a result to go on with. -/
theorem Reads.bind {ok : Bool} {blocked' : Nat} (hp : Reads checked p f 0 blocked) (hok : ∀ s, (f s).isOk = ok)
    (hq : ∀ b, Reads checked (q b) (g b) 0 blocked') :
    Reads checked (p >>= q) (fun s => f s >>= fun b => g b s) 0 (max blocked (if ok then blocked' else 0)) := by
  constructor
  · rintro s ⟨hactive, hblocked⟩
    have hfirst : s.HasRoom 0 blocked := ⟨hactive, by omega⟩
    show EStateM.bind p q s = _
    rw [EStateM.bind, hp.room s hfirst]
    cases hf : f s.guards with
    | error e => rfl
    | ok b =>
      obtain rfl : true = ok := by rw [← hok s.guards, hf]; rfl
      exact (hq b).room s ⟨hactive, by rw [if_pos rfl] at hblocked; omega⟩
  · intro hchecked s hs
    show EStateM.bind p q s = _
    by_cases hfirst : s.HasRoom 0 blocked
    · -- the first comes to its end, so it is the second that has no room
      rw [EStateM.bind, hp.room s hfirst]
      cases hf : f s.guards with
      | error e =>
        obtain rfl : false = ok := by rw [← hok s.guards, hf]; rfl
        rw [if_neg Bool.false_ne_true, Nat.max_zero] at hs
        exact absurd hfirst hs
      | ok b =>
        obtain rfl : true = ok := by rw [← hok s.guards, hf]; rfl
        rw [if_pos rfl] at hs
        refine (hq b).full hchecked s fun hsecond => hs ⟨hfirst.1, ?_⟩
        have hboth := And.intro hfirst.2 hsecond.2
        omega
    · rw [EStateM.bind, hp.full hchecked s hfirst]

/-- How much room is needed by some readers one after the other, up to the first that gives no result. -/
def peak (ok : β → Bool) (room : β → Nat) : List β → Nat
  | [] => 0
  | b :: bs => max (room b) (if ok b then peak ok room bs else 0)

theorem Reads.mapM {p : β → Sharing γ} {f : β → Guards → Except GenError γ} {ok : β → Bool} {room : β → Nat}
    (hp : ∀ b, Reads checked (p b) (f b) 0 (room b)) (hok : ∀ b s, (f b s).isOk = ok b) (bs : List β) :
    Reads checked (bs.mapM p) (fun s => bs.mapM fun b => f b s) 0 (peak ok room bs) := by
  induction bs with
  | nil => exact reads_give (.ok [])
  | cons b bs ih =>
    simp only [List.mapM_cons, peak]
    exact (hp b).bind (hok b) fun c => ih.andThen fun cs => reads_give (.ok (c :: cs))

/-- A word that is raised is one more, unless it is full. -/
theorem raise_word (w : UInt32) : (w.toNat + 1 < UInt32.size ∧ w + 1 ≠ 0 ∧ (w + 1).toNat = w.toNat + 1) ∨
    (UInt32.size ≤ w.toNat + 1 ∧ w + 1 = 0) := by
  have hbound := w.toNat_lt_size
  have hnat : (w + 1).toNat = (w.toNat + 1) % UInt32.size := UInt32.toNat_add w 1
  rw [ne_eq, ← UInt32.toNat_inj, hnat, UInt32.toNat_zero]
  unfold UInt32.size at *
  omega

theorem Reads.guarded {counter : Switch → UInt32} {raise : Switch → Switch} {change : Guards → Guards}
    {active' blocked' : Nat} (hp : Reads checked p f active blocked)
    (hroom : ∀ s, s.HasRoom active' blocked' →
      counter (raise s) ≠ 0 ∧ (raise s).guards = change s.guards ∧ (raise s).HasRoom active blocked)
    (hfull : ∀ s, ¬s.HasRoom active' blocked' → counter (raise s) = 0 ∨ ¬(raise s).HasRoom active blocked) :
    Reads checked (guarded checked counter raise p) (fun s => f (change s)) active' blocked' := by
  constructor
  · intro s hs
    obtain ⟨hcounter, hguards, hraised⟩ := hroom s hs
    simp only [Sharing.guarded, beq_eq_false_iff_ne.mpr hcounter, Bool.and_false, hp.room _ hraised, hguards]
    cases f (change s.guards) <;> rfl
  · intro hchecked s hs
    rcases hfull s hs with hcounter | hraised
    · simp [Sharing.guarded, hchecked, hcounter]
    · simp [Sharing.guarded, hp.full hchecked _ hraised]

theorem Reads.blocking (hp : Reads checked p f 0 blocked) :
    Reads checked (blocking checked p) (fun s => f s.block) 0 (blocked + 1) := by
  refine hp.guarded (fun s hs => ?_) fun s hs => ?_
  · rcases raise_word s.blocked with ⟨-, hne, hraised⟩ | ⟨hfull, -⟩
    · refine ⟨hne, congrArg (Guards.mk _) hraised, hs.1, ?_⟩
      have hblocked := hs.2
      simp only [Switch.block, hraised]
      omega
    · exact absurd hs.2 (by omega)
  · rcases raise_word s.blocked with ⟨-, -, hraised⟩ | ⟨-, hzero⟩
    · refine .inr fun hroom => hs ⟨hroom.1, ?_⟩
      have hblocked := hroom.2
      simp only [Switch.block, hraised] at hblocked
      omega
    · exact .inl hzero

end Sharing

namespace Scope

open Sharing

variable {c : Scope}

/-! ## Writing with a shared switch -/

mutual

/-- The C++ type of a type. Element types are written in a scope that blocks the switch. -/
def sharedTypeName (c : Scope) (checked : Bool) : TypeExpr Mark → Sharing String
  | .builtin _ t => if t.isScalar then pure t.cpp else refer t.cpp
  | .custom m name => do
    let type ← give (c.customName m name)
    refer type
  | .list _ element => do
    let type ← blocking checked (c.sharedTypeName checked element)
    refer s!"std::vector< {type} >"
  | .map _ key value => do
    let keyType ← blocking checked (c.sharedTypeName checked key)
    let valueType ← blocking checked (c.sharedTypeName checked value)
    refer s!"std::map< {keyType}, {valueType} >"
  | .tuple m elements =>
    if elements.length = 2 then do
      let types ← c.sharedElements checked elements
      refer ("std::pair< " ++ commaList types ++ " >")
    else give (c.unsupported s!"tuple of {elements.length} elements" m)

/-- The C++ types of some element types, each in a scope of its own. -/
def sharedElements (c : Scope) (checked : Bool) : List (TypeExpr Mark) → Sharing (List String)
  | [] => pure []
  | t :: ts => do
    let type ← blocking checked (c.sharedTypeName checked t)
    let types ← c.sharedElements checked ts
    pure (type :: types)

end

/-- Whether a type can be written. -/
def writes (c : Scope) (t : TypeExpr Mark) : Bool := (c.plain t).isOk

mutual

/-- How many scopes are open at once while a type is written. Behind a type that cannot be written there is nothing. -/
def depth (c : Scope) : TypeExpr Mark → Nat
  | .builtin .. | .custom .. => 0
  | .list _ element => c.depth element + 1
  | .map _ key value => max (c.depth key + 1) (if c.writes key then c.depth value + 1 else 0)
  | .tuple _ elements => if elements.length = 2 then c.elementsDepth elements else 0

def elementsDepth (c : Scope) : List (TypeExpr Mark) → Nat
  | [] => 0
  | t :: ts => max (c.depth t + 1) (if c.writes t then c.elementsDepth ts else 0)

end

theorem isOk_typeName (c : Scope) (s : Guards) (t : TypeExpr Mark) : (c.typeName s t).isOk = c.writes t := by
  rw [typeName_eq_map_plain, writes]
  cases c.plain t <;> rfl

mutual

/-- Writing a type does no more with the switch than read it. -/
theorem reads_sharedTypeName (c : Scope) : ∀ t : TypeExpr Mark,
    Reads checked (c.sharedTypeName checked t) (c.typeName · t) 0 (c.depth t)
  | .builtin _ t => by
    simp only [sharedTypeName, typeName]
    split
    · exact reads_give (.ok t.cpp)
    · exact reads_refer t.cpp
  | .custom m name => (reads_give (c.customName m name)).andThen reads_refer
  | .list _ element => (reads_sharedTypeName c element).blocking.andThen fun _ => reads_refer _
  | .map _ key value =>
    (reads_sharedTypeName c key).blocking.bind (fun s => c.isOk_typeName s.block key) fun _ =>
      (reads_sharedTypeName c value).blocking.andThen fun _ => reads_refer _
  | .tuple m elements => by
    simp only [sharedTypeName, typeName, depth]
    split
    · exact (reads_sharedElements c elements).andThen fun _ => reads_refer _
    · exact reads_give _

theorem reads_sharedElements (c : Scope) : ∀ ts : List (TypeExpr Mark),
    Reads checked (c.sharedElements checked ts) (fun s => c.typeNames s.block ts) 0 (c.elementsDepth ts)
  | [] => reads_give (.ok [])
  | t :: ts =>
    (reads_sharedTypeName c t).blocking.bind (fun s => c.isOk_typeName s.block t) fun type =>
      (reads_sharedElements c ts).andThen fun types => reads_give (.ok (type :: types))

end

/-- A switch that is blocked as often as can be counted. A list of strings is written in it by a program that does not
check, and the strings are taken to be outermost. -/
example (c : Scope) (m : Mark) : c.sharedTypeName false (.list m (.builtin m .string)) ⟨1, 0xFFFFFFFF⟩ =
    .ok "std::vector< const std::string& >" ⟨1, 0xFFFFFFFF⟩ := rfl

end Scope
end Cpp
end QiIdl
