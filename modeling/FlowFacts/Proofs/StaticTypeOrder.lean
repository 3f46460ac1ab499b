/-
The order of static types.  References are compared in what they refer to and
in their nullability at once; with subtyping transitive, the whole is a
preorder between the bottom and the top.
-/
import FlowFacts.Proofs.Subtyping

namespace FlowFacts

namespace Nullability

variable {a b c : Nullability}

theorem le_iff : a.le b = true ↔ a = b ∨ a = bottom ∨ b = maybe := by
  simp [le, or_assoc]

theorem le_refl (a : Nullability) : a.le a = true :=
  le_iff.mpr (Or.inl rfl)

theorem le_trans (hab : a.le b = true) (hbc : b.le c = true) :
    a.le c = true := by
  rw [le_iff] at hab hbc ⊢
  rcases hab with rfl | rfl | rfl
  · exact hbc
  · exact Or.inr (Or.inl rfl)
  · rcases hbc with rfl | hbottom | rfl
    · exact Or.inr (Or.inr rfl)
    · cases hbottom
    · exact Or.inr (Or.inr rfl)

end Nullability

namespace Referent

variable {program : Program} {r s t : Referent}

theorem le_refl (program : Program) (r : Referent) : r.le program r = true := by
  rw [le]
  cases r.type? with
  | none => rfl
  | some type => exact program.isSubtype_refl type

theorem le_trans (hroot : ∀ sup, ¬ program.Extends WellKnown.object sup)
    (hrs : r.le program s = true) (hst : s.le program t = true) :
    r.le program t = true := by
  rw [le] at hrs hst ⊢
  cases hr : r.type? with
  | none => rfl
  | some a =>
      cases hs : s.type? with
      | none => simp [hr, hs] at hrs
      | some b =>
          cases ht : t.type? with
          | none => simp [hs, ht] at hst
          | some c =>
              simp only [hr, hs] at hrs
              simp only [hs, ht] at hst
              exact Program.isSubtype_trans hroot hrs hst

end Referent

namespace StaticType

variable {program : Program} {x y z : StaticType}
variable {r s : Referent} {m n : Nullability}

/-- One static type is below another: the rules of the order. -/
inductive Below (program : Program) : StaticType → StaticType → Prop
  | refl (x : StaticType) : Below program x x
  | bottom (x : StaticType) : Below program bottom x
  | top (x : StaticType) : Below program x top
  | reference {r s : Referent} {m n : Nullability} (hnull : m.le n = true)
      (hrefers : r.le program s = true) :
      Below program (reference r m) (reference s n)

theorem le_iff_below : x.le program y = true ↔ Below program x y := by
  unfold le
  rw [Bool.or_eq_true, beq_iff_eq]
  constructor
  · rintro (rfl | hrest)
    · exact .refl x
    · split at hrest
      · exact .bottom y
      · exact .top x
      · rw [Bool.and_eq_true] at hrest
        exact .reference hrest.1 hrest.2
      · cases hrest
  · intro hbelow
    cases hbelow with
    | refl => exact Or.inl rfl
    | bottom => exact Or.inr rfl
    | top =>
        right
        cases x <;> rfl
    | reference hnull hrefers =>
        right
        simp [hnull, hrefers]

theorem Below.trans (hroot : ∀ sup, ¬ program.Extends WellKnown.object sup)
    (hxy : Below program x y) (hyz : Below program y z) :
    Below program x z := by
  cases hxy with
  | refl => exact hyz
  | bottom => exact .bottom z
  | top =>
      cases hyz with
      | refl => exact .top x
      | top => exact .top x
  | reference hnull hrefers =>
      cases hyz with
      | refl => exact .reference hnull hrefers
      | top => exact .top _
      | reference hnull' hrefers' =>
          exact .reference (Nullability.le_trans hnull hnull')
            (Referent.le_trans hroot hrefers hrefers')

theorem le_refl (program : Program) (x : StaticType) :
    x.le program x = true :=
  le_iff_below.mpr (.refl x)

theorem le_trans (hroot : ∀ sup, ¬ program.Extends WellKnown.object sup)
    (hxy : x.le program y = true) (hyz : y.le program z = true) :
    x.le program z = true := by
  rw [le_iff_below] at hxy hyz ⊢
  exact hxy.trans hroot hyz

theorem reference_le_iff : (reference r m).le program (reference s n) = true ↔
    m.le n = true ∧ r.le program s = true := by
  rw [le_iff_below]
  constructor
  · intro hbelow
    cases hbelow with
    | refl => exact ⟨m.le_refl, r.le_refl program⟩
    | reference hnull hrefers => exact ⟨hnull, hrefers⟩
  · exact fun h => .reference h.1 h.2

/-- If objects extend nothing, the order is a preorder with a least and a
greatest type, and a comparison of references survives a lower nullability on
the left and a higher one on the right. -/
theorem le_preorder_with_bounds
    (hroot : ∀ sup, ¬ program.Extends WellKnown.object sup) :
    (∀ x : StaticType, x.le program x = true) ∧
    (∀ x y z : StaticType, x.le program y = true → y.le program z = true →
      x.le program z = true) ∧
    (∀ x : StaticType, bottom.le program x = true ∧ x.le program top = true) ∧
    ∀ r s m n, (reference r m).le program (reference s n) = true →
      m.le n = true ∧
      ∀ lower higher, lower.le m = true → n.le higher = true →
        (reference r lower).le program (reference s higher) = true := by
  refine ⟨le_refl program, fun x y z => le_trans hroot, ?_, ?_⟩
  · exact fun x => ⟨le_iff_below.mpr (.bottom x), le_iff_below.mpr (.top x)⟩
  · intro r s m n hle
    obtain ⟨hnull, hrefers⟩ := reference_le_iff.mp hle
    refine ⟨hnull, fun lower higher hlower hhigher => ?_⟩
    apply reference_le_iff.mpr
    exact ⟨Nullability.le_trans (Nullability.le_trans hlower hnull) hhigher,
      hrefers⟩

theorem circularInterfaces_le_preorder :
    (∀ sup, ¬ Program.circularInterfaces.Extends WellKnown.object sup) ∧
    (reference (.array 6) .nonNull).le Program.circularInterfaces
      (reference (.array 8) .maybe) = true ∧
    (reference (.array 8) .maybe).le Program.circularInterfaces
      (reference (.array 10) .maybe) = true ∧
    (reference (.array 6) .bottom).le Program.circularInterfaces
      (reference (.array 10) .maybe) = true := by
  have hroot := Program.circularInterfaces_root
  obtain ⟨_, htrans, _, hreference⟩ := le_preorder_with_bounds hroot
  have hdeep : (reference (.array 6) .nonNull).le Program.circularInterfaces
      (reference (.array 8) .maybe) = true := by decide
  have hobjects : (reference (.array 8) .maybe).le Program.circularInterfaces
      (reference (.array 10) .maybe) = true := by decide
  refine ⟨hroot, hdeep, hobjects, ?_⟩
  exact (hreference _ _ _ _ (htrans _ _ _ hdeep hobjects)).2 _ _
    (by decide) (by decide)

end StaticType

end FlowFacts
