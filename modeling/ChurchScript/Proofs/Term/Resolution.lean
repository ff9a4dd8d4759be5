import Mathlib.Data.Finmap
import ChurchScript.Proofs.Term.Skeleton

/-!
# Resolved terms are bound lexically

Where a variable of a resolved term belongs is read off the abstractions around it: to
the nearest one of its name, or to none (`resolve_binds_lexically`). The same annotations
come from a walk with one map from names to depths and one stack of marks, which are
changed on the way into a body and changed back on the way out (`walk`). Its subtraction
and its access to the stack are checked there, and neither ever fails.
-/
namespace ChurchScript.Term

/-- A term without its annotations. -/
def plain : Term → Term
  | var x _ _ => name x
  | abs x _ body => lam x body.plain
  | app f a => app f.plain a.plain

/-- A subterm of a term, with the abstractions around it, innermost first, each by its name
and its mark. -/
inductive Occurs : Term → List (String × Option Binder) → Term → Prop
  | here (t : Term) : Occurs t [] t
  | body {body s : Term} {around : List (String × Option Binder)} (x : String)
      (binder : Option Binder) : Occurs body around s →
      Occurs (abs x binder body) (around ++ [(x, binder)]) s
  | function {f s : Term} {around : List (String × Option Binder)} (a : Term) :
      Occurs f around s → Occurs (app f a) around s
  | argument {a s : Term} {around : List (String × Option Binder)} (f : Term) :
      Occurs a around s → Occurs (app f a) around s

/-- A variable belongs to the nearest abstraction of its name: its index counts those that
lie between them, and its mark is that of the abstraction. Without such an abstraction it
carries nothing. -/
inductive BoundLexically (x : String) :
    List (String × Option Binder) → Option Nat → Option Binder → Prop
  | bound {between outside : List (String × Option Binder)} {binder : Binder} :
      x ∉ between.map Prod.fst →
      BoundLexically x (between ++ (x, some binder) :: outside) (some between.length) (some binder)
  | free {around : List (String × Option Binder)} :
      x ∉ around.map Prod.fst → BoundLexically x around none none

/-- The enclosing abstractions as a resolved term has them. -/
def Enclosing.marked (enclosing : Enclosing) : List (String × Option Binder) :=
  enclosing.map fun entry => (entry.1, some entry.2)

section Lexical

variable {x : String} {enclosing : Enclosing}

theorem find_nearest {index : Nat} {binder : Binder}
    (found : enclosing.find? x = some (index, binder)) :
    ∃ between outside : Enclosing, enclosing = between ++ (x, binder) :: outside ∧
      x ∉ between.map Prod.fst ∧ between.length = index := by
  induction enclosing generalizing index with
  | nil => cases found
  | cons first outer ih =>
    obtain ⟨y, mark⟩ := first
    unfold Enclosing.find? at found
    by_cases same : x = y
    · rw [if_pos same] at found
      cases found
      exact ⟨[], outer, by rw [same]; rfl, by simp, rfl⟩
    · rw [if_neg same] at found
      obtain ⟨⟨inner, mark'⟩, nearest, step⟩ := Option.map_eq_some_iff.mp found
      cases step
      obtain ⟨between, outside, rfl, others, rfl⟩ := ih nearest
      exact ⟨(y, mark) :: between, outside, rfl, by simpa [same] using others, rfl⟩

theorem not_mem_of_find_none (missing : enclosing.find? x = none) :
    x ∉ enclosing.map Prod.fst := by
  intro member
  have found := find_index x enclosing
  rw [missing, if_pos member] at found
  cases found

theorem marked_names (enclosing : Enclosing) :
    enclosing.marked.map Prod.fst = enclosing.map Prod.fst := by
  simp [Enclosing.marked, Function.comp_def]

/-- What is looked up among the enclosing abstractions is what the variable belongs to. -/
theorem find_bound_lexically (x : String) (enclosing : Enclosing) :
    BoundLexically x enclosing.marked ((enclosing.find? x).map Prod.fst)
      ((enclosing.find? x).map Prod.snd) := by
  cases found : enclosing.find? x with
  | none =>
    refine .free ?_
    rw [marked_names]
    exact not_mem_of_find_none found
  | some nearest =>
    obtain ⟨index, binder⟩ := nearest
    obtain ⟨between, outside, rfl, others, rfl⟩ := find_nearest found
    rw [← marked_names] at others
    have lexically : BoundLexically x
        (Enclosing.marked between ++ (x, some binder) :: Enclosing.marked outside)
        (some (Enclosing.marked between).length) (some binder) := .bound others
    simpa [Enclosing.marked] using lexically

/-- Every variable of an annotated term belongs where the abstractions around it, in the
term and outside of it, say. -/
theorem annotate_binds_lexically (t : Term) {next : UInt32} {around : List (String × Option Binder)}
    {index : Option Nat} {binder : Option Binder}
    (occurs : Occurs (t.annotate enclosing next).1 around (var x index binder)) :
    BoundLexically x (around ++ enclosing.marked) index binder := by
  induction t generalizing enclosing next around with
  | var y staleIndex staleBinder =>
    have lexically := find_bound_lexically y enclosing
    unfold annotate at occurs
    generalize enclosing.find? y = found at occurs lexically
    cases found with
    | none =>
      cases occurs
      exact lexically
    | some nearest =>
      cases occurs
      exact lexically
  | abs y mark body ih =>
    -- the abstraction itself is the outermost one in the term
    cases mark with
    | none =>
      cases occurs with
      | body _ _ inside => simpa [Enclosing.marked] using ih inside
    | some mark =>
      cases occurs with
      | body _ _ inside => simpa [Enclosing.marked] using ih inside
  | app f a ihf iha =>
    cases occurs with
    | function _ inside => exact ihf inside
    | argument _ inside => exact iha inside

theorem annotate_plain (t : Term) (enclosing : Enclosing) (next : UInt32) :
    (t.annotate enclosing next).1.plain = t.plain := by
  induction t generalizing enclosing next with
  | var y index binder =>
    unfold annotate
    cases enclosing.find? y with
    | none => rfl
    | some nearest => rfl
  | abs y mark body ih =>
    cases mark with
    | none => exact congrArg (lam y) (ih _ _)
    | some mark => exact congrArg (lam y) (ih _ _)
  | app f a ihf iha => exact congrArg₂ app (ihf _ _) (iha _ _)

/-- The skeleton of a term is made of its names alone. -/
theorem nameless_plain (t : Term) (names : List String) :
    t.plain.nameless names = t.nameless names := by
  induction t generalizing names with
  | var y index binder => rfl
  | abs y mark body ih => exact congrArg Skeleton.abs (ih _)
  | app f a ihf iha => exact congrArg₂ Skeleton.app (ihf _) (iha _)

end Lexical

section Walk

/-- What a walk over a term carries along: for each bound name the depth of its innermost
abstraction, the marks of the abstractions around, outermost first, and the next unused
number. -/
structure Walk where
  depths : Finmap fun _ : String => Nat
  marks : Array Binder
  next : UInt32

/-- The number of abstractions between two depths, if the binding one is the outer. -/
def between? (depth binding : Nat) : Option Nat :=
  if binding + 1 ≤ depth then some (depth - binding - 1) else none

/-- Takes a name out of the map again, or back to the abstraction that was shadowed. -/
def restore (depths : Finmap fun _ : String => Nat) (x : String) :
    Option Nat → Finmap fun _ : String => Nat
  | some outer => depths.insert x outer
  | none => depths.erase x

/-- Annotates a term on one walk. There is no result if a depth is not below the present
one or has no mark on the stack. -/
def walk : Term → Walk → Option (Term × Walk)
  | var x _ _, w =>
    match w.depths.lookup x with
    | some binding => do
      let index ← between? w.marks.size binding
      let binder ← w.marks[binding]?
      return (var x (some index) (some binder), w)
    | none => return (var x none none, w)
  | abs x mark body, w => do
    let binder := mark.getD ⟨w.next.toNat⟩
    let next := if mark.isSome then w.next else w.next + 1
    let (body, after) ← body.walk
      ⟨w.depths.insert x w.marks.size, w.marks.push binder, next⟩
    return (abs x (some binder) body,
      ⟨restore after.depths x (w.depths.lookup x), after.marks.pop, after.next⟩)
  | app f a, w => do
    let (f, w) ← f.walk w
    let (a, w) ← a.walk w
    return (app f a, w)

/-- The map and the stack of a walk describe the enclosing abstractions. -/
structure Walk.Tracks (w : Walk) (enclosing : Enclosing) : Prop where
  depths : ∀ x, w.depths.lookup x =
    (enclosing.find? x).map fun found => enclosing.length - (found.1 + 1)
  marks : w.marks.toList.reverse = enclosing.map Prod.snd

namespace Walk.Tracks

variable {w : Walk} {enclosing : Enclosing}

theorem size (tracks : w.Tracks enclosing) : w.marks.size = enclosing.length := by
  have lengths := congrArg List.length tracks.marks
  simpa using lengths

/-- One more abstraction around. -/
theorem enter (tracks : w.Tracks enclosing) (x : String) (binder : Binder) (next : UInt32) :
    Walk.Tracks ⟨w.depths.insert x w.marks.size, w.marks.push binder, next⟩
      ((x, binder) :: enclosing) where
  depths y := by
    unfold Enclosing.find?
    by_cases same : y = x
    · rw [same, Finmap.lookup_insert, if_pos rfl, tracks.size]
      rfl
    · rw [Finmap.lookup_insert_of_ne _ same, if_neg same, tracks.depths y, Option.map_map]
      cases enclosing.find? y with
      | none => rfl
      | some found => simp
  marks := by simp [tracks.marks]

/-- The nearest abstraction of a name is at a depth below the present one, and its mark is
on the stack. -/
theorem nearest (tracks : w.Tracks enclosing) {x : String} {index : Nat} {binder : Binder}
    (found : enclosing.find? x = some (index, binder)) :
    ∃ binding, w.depths.lookup x = some binding ∧
      between? w.marks.size binding = some index ∧ w.marks[binding]? = some binder := by
  obtain ⟨inner, outer, rfl, -, rfl⟩ := find_nearest found
  refine ⟨outer.length, ?_, ?_, ?_⟩
  · rw [tracks.depths x, found]
    simp only [Option.map_some, Option.some.injEq, List.length_append, List.length_cons]
    omega
  · have size := tracks.size
    simp only [List.length_append, List.length_cons] at size
    have below : outer.length + 1 ≤ w.marks.size := by omega
    have distance : w.marks.size - outer.length - 1 = inner.length := by omega
    rw [between?, if_pos below, distance]
  · have marks := congrArg List.reverse tracks.marks
    rw [List.reverse_reverse] at marks
    rw [← Array.getElem?_toList, marks]
    simp

end Walk.Tracks

/-- On the way out of a body the map is what it was on the way in. -/
theorem restore_insert (depths : Finmap fun _ : String => Nat) (x : String) (depth : Nat) :
    restore (depths.insert x depth) x (depths.lookup x) = depths := by
  apply Finmap.ext_lookup
  intro y
  cases shadowed : depths.lookup x with
  | none =>
    by_cases same : y = x
    · rw [same, restore, Finmap.lookup_erase, shadowed]
    · rw [restore, Finmap.lookup_erase_ne same, Finmap.lookup_insert_of_ne _ same]
  | some outer =>
    by_cases same : y = x
    · rw [same, restore, Finmap.lookup_insert, shadowed]
    · rw [restore, Finmap.lookup_insert_of_ne _ same, Finmap.lookup_insert_of_ne _ same]

/-- A walk that starts among the enclosing abstractions annotates as they say, and leaves
its map and its stack as they were. -/
theorem walk_eq_annotate (t : Term) {w : Walk} {enclosing : Enclosing}
    (tracks : w.Tracks enclosing) :
    t.walk w = some ((t.annotate enclosing w.next).1,
      { w with next := (t.annotate enclosing w.next).2 }) := by
  induction t generalizing w enclosing with
  | var x index binder =>
    unfold walk annotate
    cases found : enclosing.find? x with
    | none =>
      have missing := tracks.depths x
      rw [found] at missing
      rw [missing]
      rfl
    | some nearest =>
      obtain ⟨index, binder⟩ := nearest
      obtain ⟨binding, depth, distance, mark⟩ := tracks.nearest found
      simp [depth, distance, mark]
  | abs x mark body ih =>
    unfold walk
    cases mark with
    | none =>
      have inside := ih (tracks.enter x ⟨w.next.toNat⟩ (w.next + 1))
      simp [inside, annotate, restore_insert]
    | some mark =>
      have inside := ih (tracks.enter x mark w.next)
      simp [inside, annotate, restore_insert]
  | app f a ihf iha =>
    have function := ihf tracks
    have argument := iha (w := { w with next := (f.annotate enclosing w.next).2 })
      ⟨tracks.depths, tracks.marks⟩
    simp [walk, annotate, function, argument]

/-- A walk at the root of a term. -/
def Walk.start (t : Term) : Walk := ⟨∅, #[], (MarkSupply.beyond t).next⟩

theorem Walk.start_tracks (t : Term) : (Walk.start t).Tracks [] :=
  ⟨fun x => Finmap.lookup_empty x, rfl⟩

end Walk

/-- A resolved term has the shape and the names of the term. Each of its variables belongs
to the nearest abstraction of its name around it, by its index and by its mark, and carries
neither without one. The indices follow from the names alone, whatever the term carried
before. A walk with a map of depths and a stack of marks comes to the same term, without a
subtraction below zero and without a depth that has no mark, and empties both again. -/
theorem resolve_binds_lexically (t : Term) :
    t.resolve.plain = t.plain ∧
    (∀ around x index binder, Occurs t.resolve around (var x index binder) →
      BoundLexically x around index binder) ∧
    (∀ u : Term, u.plain = t.plain → u.resolve.skeleton = t.resolve.skeleton) ∧
    ∃ next, t.walk (Walk.start t) = some (t.resolve, { Walk.start t with next := next }) := by
  refine ⟨annotate_plain t [] _, ?_, ?_, ?_⟩
  · intro around x index binder occurs
    have lexically : BoundLexically x (around ++ Enclosing.marked []) index binder :=
      annotate_binds_lexically t occurs
    rwa [Enclosing.marked, List.map_nil, List.append_nil] at lexically
  · intro u same
    rw [resolve_skeleton, resolve_skeleton, ← nameless_plain u, same, nameless_plain]
  · exact ⟨_, walk_eq_annotate t (Walk.start_tracks t)⟩

end ChurchScript.Term
