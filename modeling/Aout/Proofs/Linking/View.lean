import Aout.Proofs.Linking.Fragment
/-!
Objects without their tables. A view of an object has names where the object has positions in its
symbol table: its bytes, what its placeholders stand for, and what is known of its names. Two views
join (`View.join`) when the bytes stand behind one another and each placeholder that stands for a
name with a meaning holds the address of the name.

Joining is associative for views that have no definition in common (`View.join_assoc`), and so is
what forbids it (`View.joinable_assoc`): in both groupings it is a name for which some placeholder
stands, and whose address has more than 16 bits.
-/

set_option autoImplicit false
set_option relaxedAutoImplicit false

namespace Aout

/-- What one sees of a relocated object without its symbol table: what stands in its segments, of
which kind its names are, and what the defined ones mean. -/
@[ext] structure View where
  bssSize : Nat
  contents : StoredSegment → Fragment
  kind? : String → Option SymbolKind
  meaning? : String → Option Meaning

namespace View

/-- What names mean where two views are joined. -/
def known (first second : View) (name : String) : Option Meaning :=
  (first.meaning? name).or (second.meaning? name)

/-- Some placeholder stands for the name. -/
def refersTo (view : View) (name : String) : Bool :=
  StoredSegment.all.any fun owner ↦ (view.contents owner).refersTo name

/-- The second view behind the first. A name that means nothing in either is of the kind that it has
in the first one; if it has none there, it is awaited where the second refers to it. -/
def join (first second : View) : View where
  bssSize := first.bssSize + second.bssSize
  contents := fun owner ↦
    ((first.contents owner).append (second.contents owner)).resolve (first.known second)
  kind? := fun name ↦
    match first.known second name with
    | some meaning => some meaning.kind
    | none =>
      (first.kind? name).or (if second.refersTo name then some SymbolKind.awaited else none)
  meaning? := first.known second

/-- No name means something in both views. -/
def Disjoint (first second : View) : Prop :=
  ∀ name, first.meaning? name = none ∨ second.meaning? name = none

/-- No name to which some placeholder refers has an address of more than 16 bits. -/
def Narrow (refersTo : String → Prop) (meanings : String → Option Meaning) : Prop :=
  ∀ name meaning, refersTo name → meanings name = some meaning → meaning.address.toNat ≤ 0xFFFF

/-- There is nothing against joining two views. -/
structure Joinable (first second : View) : Prop where
  bss : first.bssSize + second.bssSize < UInt32.size
  agree : ∀ name known given, first.meaning? name = some known →
    second.meaning? name = some given → ¬ known.Clashes given
  narrow : Narrow (fun name ↦ first.refersTo name ∨ second.refersTo name) (first.known second)

/-- What stands in both segments is sound. -/
def Sound (view : View) : Prop :=
  ∀ owner, (view.contents owner).Sound

variable {first second third : View} {name : String}

theorem Sound.join (hfirst : first.Sound) (hsecond : second.Sound) : (first.join second).Sound :=
  fun owner ↦ ((hfirst owner).append (hsecond owner)).resolve _

theorem refersTo_iff {view : View} :
    view.refersTo name ↔ ∃ owner, (view.contents owner).refersTo name := by
  rw [refersTo, List.any_eq_true]
  exact ⟨fun ⟨owner, _, hrefers⟩ ↦ ⟨owner, hrefers⟩,
    fun ⟨owner, hrefers⟩ ↦ ⟨owner, StoredSegment.mem_all owner, hrefers⟩⟩

/-- A joint refers to no name to which neither view refers. -/
theorem refersTo_of_join (hrefers : (first.join second).refersTo name) :
    first.refersTo name ∨ second.refersTo name := by
  obtain ⟨owner, howner⟩ := refersTo_iff.mp hrefers
  have hjoint := Fragment.refersTo_of_resolve howner
  rw [Fragment.refersTo_append, Bool.or_eq_true] at hjoint
  exact hjoint.imp (fun hfirst ↦ refersTo_iff.mpr ⟨owner, hfirst⟩)
    fun hsecond ↦ refersTo_iff.mpr ⟨owner, hsecond⟩

/-- A joint goes on referring to the names that mean nothing in either view. -/
theorem refersTo_join (hunknown : first.known second name = none) :
    (first.join second).refersTo name = (first.refersTo name || second.refersTo name) := by
  simp only [refersTo, join, Fragment.refersTo_resolve_of_unknown hunknown,
    Fragment.refersTo_append]
  simp [StoredSegment.all, Bool.or_assoc, Bool.or_comm, Bool.or_left_comm]

@[simp] theorem meaning?_join (first second : View) :
    (first.join second).meaning? = first.known second := rfl

theorem contents_join (first second : View) (owner : StoredSegment) :
    (first.join second).contents owner =
      ((first.contents owner).append (second.contents owner)).resolve (first.known second) := rfl

theorem known_eq_none_iff : first.known second name = none ↔
    first.meaning? name = none ∧ second.meaning? name = none :=
  Option.or_eq_none_iff

theorem kind?_join_of_unknown (hunknown : first.known second name = none) :
    (first.join second).kind? name =
      (first.kind? name).or (if second.refersTo name then some SymbolKind.awaited else none) := by
  simp only [join, hunknown]

/-- Names that mean the same are of the same kind in two joints, if those that mean nothing are. -/
theorem kind?_join_congr {front back : View}
    (hknown : first.known second name = front.known back name)
    (hkind : first.known second name = none →
      (first.join second).kind? name = (front.join back).kind? name) :
    (first.join second).kind? name = (front.join back).kind? name := by
  cases hmeaning : first.known second name with
  | none => exact hkind hmeaning
  | some meaning => simp only [join, hmeaning, ← hknown]

theorem known_assoc (first second third : View) :
    (first.join second).known third = first.known (second.join third) :=
  funext fun _ ↦ Option.or_assoc ..

theorem Disjoint.join_right (hsecond : first.Disjoint second) (hthird : first.Disjoint third) :
    first.Disjoint (second.join third) := by
  intro name
  rcases hsecond name with hnone | hsecond
  · exact .inl hnone
  · exact (hthird name).imp id fun hthird ↦ known_eq_none_iff.mpr ⟨hsecond, hthird⟩

theorem Disjoint.join_left (hfirst : first.Disjoint third) (hsecond : second.Disjoint third) :
    (first.join second).Disjoint third := by
  intro name
  rcases hfirst name with hfirst | hnone
  · exact (hsecond name).imp (fun hsecond ↦ known_eq_none_iff.mpr ⟨hfirst, hsecond⟩) id
  · exact .inr hnone

/-- What a name means in one of two views it means in the joint, if the other says nothing. -/
theorem Disjoint.known_right (hdisjoint : first.Disjoint second) {meaning : Meaning}
    (hmeaning : second.meaning? name = some meaning) : first.known second name = some meaning := by
  have hnone : first.meaning? name = none :=
    (hdisjoint name).resolve_right (by rw [hmeaning]; exact nofun)
  rw [known, hnone, hmeaning]
  rfl

theorem known_left {meaning : Meaning} (hmeaning : first.meaning? name = some meaning) :
    first.known second name = some meaning := by
  rw [known, hmeaning]
  rfl

/-- Joining is associative for views of which the first says nothing of names that mean something in
the others. -/
theorem join_assoc (hfirst : first.Sound) (hsecond : second.Sound) (hthird : third.Sound)
    (hdisjoint : first.Disjoint (second.join third)) :
    (first.join second).join third = first.join (second.join third) := by
  have hknown := known_assoc first second third
  ext1
  · exact Nat.add_assoc ..
  · funext owner
    have hleft : ∀ name meaning, first.known second name = some meaning →
        first.known (second.join third) name = some meaning := by
      intro name meaning hmeaning
      rw [← hknown]
      exact known_left hmeaning
    have hright : ∀ name meaning, second.known third name = some meaning →
        first.known (second.join third) name = some meaning :=
      fun _ _ ↦ hdisjoint.known_right
    have hfront := (hfirst owner).append (hsecond owner)
    have hback := (hsecond owner).append (hthird owner)
    rw [contents_join, Fragment.resolve_append (hfirst.join hsecond owner), contents_join,
      contents_join, contents_join, hknown, Fragment.resolve_resolve hfront hleft,
      ← Fragment.resolve_append hfront, Fragment.append_assoc,
      Fragment.resolve_append (hfirst owner), Fragment.resolve_append (hfirst owner),
      Fragment.resolve_resolve hback hright]
  · funext name
    refine kind?_join_congr (congrFun hknown name) fun hnone ↦ ?_
    have hother : first.known (second.join third) name = none := hknown ▸ hnone
    have hfront := (known_eq_none_iff.mp hnone).1
    have hback := (known_eq_none_iff.mp hother).2
    rw [kind?_join_of_unknown hnone, kind?_join_of_unknown hother, kind?_join_of_unknown hfront,
      refersTo_join hback, Option.or_assoc]
    cases second.refersTo name <;> rfl
  · exact hknown

/-! ### What there is against joining -/

/-- Views with nothing in common and little bss join unless some reference reaches too far. -/
theorem Disjoint.joinable_iff (hdisjoint : first.Disjoint second)
    (hbss : first.bssSize + second.bssSize < UInt32.size) :
    first.Joinable second ↔
      Narrow (fun name ↦ first.refersTo name ∨ second.refersTo name) (first.known second) := by
  refine ⟨Joinable.narrow, fun hnarrow ↦ ⟨hbss, fun name known given hknown hgiven ↦ ?_, hnarrow⟩⟩
  rcases hdisjoint name with hnone | hnone
  · rw [hnone] at hknown
    cases hknown
  · rw [hnone] at hgiven
    cases hgiven

variable {referred others left : String → Prop} {former meanings : String → Option Meaning}

theorem narrow_congr (hsame : ∀ name, referred name ↔ left name) :
    Narrow referred meanings ↔ Narrow left meanings := by
  simp only [Narrow, hsame]

/-- Names are checked as they get a meaning: the names of some references first, and later those of
the references that are left, together with the names of others. -/
theorem narrow_and_iff
    (hmore : ∀ name meaning, former name = some meaning → meanings name = some meaning)
    (hleft : ∀ name, left name → referred name)
    (hunknown : ∀ name, former name = none → referred name → left name) :
    Narrow referred former ∧ Narrow (fun name ↦ left name ∨ others name) meanings ↔
      Narrow (fun name ↦ referred name ∨ others name) meanings := by
  constructor
  · rintro ⟨hformer, hlater⟩ name meaning (hrefers | hother) hmeaning
    · cases hknown : former name with
      | none => exact hlater name meaning (.inl (hunknown name hknown hrefers)) hmeaning
      | some found =>
        obtain rfl := Option.some.inj ((hmore name found hknown).symm.trans hmeaning)
        exact hformer name found hrefers hknown
    · exact hlater name meaning (.inr hother) hmeaning
  · intro hall
    refine ⟨fun name meaning hrefers hmeaning ↦ ?_, fun name meaning hrefers hmeaning ↦ ?_⟩
    · exact hall name meaning (.inl hrefers) (hmore name meaning hmeaning)
    · exact hall name meaning (hrefers.imp (hleft name) id) hmeaning

/-- What the joint of two views refers to, once more and of all the names that have a meaning by
now. -/
theorem narrow_join_iff
    (hmore : ∀ name meaning,
      first.known second name = some meaning → meanings name = some meaning) :
    Narrow (fun name ↦ first.refersTo name ∨ second.refersTo name) (first.known second) ∧
        Narrow (fun name ↦ (first.join second).refersTo name ∨ others name) meanings ↔
      Narrow (fun name ↦ (first.refersTo name ∨ second.refersTo name) ∨ others name) meanings :=
  narrow_and_iff hmore (fun _ ↦ refersTo_of_join) fun name hnone hrefers ↦ by
    rwa [refersTo_join hnone, Bool.or_eq_true]

/-- Views with nothing in common join in one grouping exactly if they join in the other. -/
theorem joinable_assoc (hsecond : first.Disjoint second) (hthird : first.Disjoint third)
    (hback : second.Disjoint third)
    (hbss : first.bssSize + second.bssSize + third.bssSize < UInt32.size) :
    first.Joinable second ∧ (first.join second).Joinable third ↔
      second.Joinable third ∧ first.Joinable (second.join third) := by
  have hdisjoint : first.Disjoint (second.join third) := hsecond.join_right hthird
  have hknown := known_assoc first second third
  have hleft : ∀ name meaning, first.known second name = some meaning →
      (first.join second).known third name = some meaning :=
    fun _ _ hmeaning ↦ known_left hmeaning
  have hright : ∀ name meaning, second.known third name = some meaning →
      (first.join second).known third name = some meaning :=
    fun _ _ hmeaning ↦ hknown ▸ hdisjoint.known_right hmeaning
  calc first.Joinable second ∧ (first.join second).Joinable third
    _ ↔ Narrow (fun name ↦ (first.refersTo name ∨ second.refersTo name) ∨ third.refersTo name)
          ((first.join second).known third) := by
      rw [hsecond.joinable_iff (by omega), (hthird.join_left hback).joinable_iff hbss,
        narrow_join_iff hleft]
    _ ↔ Narrow (fun name ↦ (second.refersTo name ∨ third.refersTo name) ∨ first.refersTo name)
          ((first.join second).known third) :=
      narrow_congr fun name ↦ by rw [or_assoc, or_comm]
    _ ↔ second.Joinable third ∧ first.Joinable (second.join third) := by
      have hbss : first.bssSize + (second.join third).bssSize < UInt32.size := by
        rwa [join, ← Nat.add_assoc]
      rw [hback.joinable_iff (by omega), hdisjoint.joinable_iff hbss, ← hknown,
        ← narrow_join_iff hright]
      exact and_congr_right fun _ ↦ narrow_congr fun _ ↦ or_comm

end View

end Aout
