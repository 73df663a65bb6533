/-
  WordFormation/Proofs/FormAlgebra.lean
  =====================================
  **What may be rewritten in a set of alternative forms.**

  Sets are combined by operations on their lists of forms: put side by side, crossed,
  zipped, reversed.  How they are nested does not show in the list, so each law for
  sets is one for lists.  Crossing is associative and has the empty form for a neutral
  element, zipping is associative, and reversing turns the two sides of either around
  (`Allomorphs.forms_algebra`).

  Wherever two forms fit a word equally well the first of them is taken, so the order of
  the forms is a part of most laws.  Two of them hold only up to order.  In a cross the
  first set changes slowest: a union on its left is split in order, one on its right is
  not, and the forms of a reversed cross do not come in the order in which the reversed
  sets are crossed.
-/
import WordFormation.Allomorphs
import Mathlib.Data.List.Perm.Basic
import Mathlib.Data.List.Zip

namespace WordFormation

/-! ### Crossed lists -/

/-- Every word of the one list with every word of the other behind it, the first
    word changing slowest. -/
def crossed (fs gs : List Word) : List Word := fs.flatMap fun front => gs.map (front ++ ·)

@[simp] theorem crossed_nil_left (fs : List Word) : crossed [[]] fs = fs := by
  simp [crossed]

@[simp] theorem crossed_nil_right (fs : List Word) : crossed fs [[]] = fs := by
  simp [crossed, List.flatMap_singleton']

theorem crossed_assoc (fs gs hs : List Word) :
    crossed (crossed fs gs) hs = crossed fs (crossed gs hs) := by
  simp [crossed, List.flatMap_assoc, List.map_flatMap, List.flatMap_map, Function.comp_def,
    List.append_assoc]

theorem crossed_singletons (f g : Word) : crossed [f] [g] = [f ++ g] := rfl

theorem crossed_append_left (fs gs hs : List Word) :
    crossed (fs ++ gs) hs = crossed fs hs ++ crossed gs hs :=
  List.flatMap_append

/-- Behind every word come those of the one list and then those of the other, not all
    of the one list first. -/
theorem crossed_append_right (fs gs hs : List Word) :
    (crossed fs (gs ++ hs)).Perm (crossed fs gs ++ crossed fs hs) := by
  have hsplit : crossed fs (gs ++ hs) =
      fs.flatMap fun front => gs.map (front ++ ·) ++ hs.map (front ++ ·) := by
    simp only [crossed, List.map_append]
  rw [hsplit]
  exact (List.flatMap_append_perm fs _ _).symm

theorem map_reverse_crossed_singleton (fs : List Word) (g : Word) :
    (crossed fs [g]).map List.reverse = crossed [g.reverse] (fs.map List.reverse) := by
  induction fs with
  | nil => rfl
  | cons f fs ih =>
    have hfirst : crossed (f :: fs) [g] = (f ++ g) :: crossed fs [g] := rfl
    rw [hfirst, List.map_cons, ih, List.reverse_append]
    rfl

/-- What changed slowest changes fastest in the reversed words. -/
theorem map_reverse_crossed (fs gs : List Word) :
    ((crossed fs gs).map List.reverse).Perm
      (crossed (gs.map List.reverse) (fs.map List.reverse)) := by
  induction gs with
  | nil => simp [crossed]
  | cons g gs ih =>
    have hsplit : ((crossed fs (g :: gs)).map List.reverse).Perm
        ((crossed fs [g]).map List.reverse ++ (crossed fs gs).map List.reverse) := by
      rw [← List.map_append]
      exact (crossed_append_right fs [g] gs).map List.reverse
    have hjoin : crossed ((g :: gs).map List.reverse) (fs.map List.reverse) =
        crossed [g.reverse] (fs.map List.reverse) ++
          crossed (gs.map List.reverse) (fs.map List.reverse) :=
      crossed_append_left [g.reverse] _ _
    rw [map_reverse_crossed_singleton] at hsplit
    rw [hjoin]
    exact hsplit.trans (ih.append_left _)

theorem length_crossed (fs gs : List Word) :
    (crossed fs gs).length = fs.length * gs.length := by
  simp only [crossed, List.length_flatMap, List.length_map, List.map_const',
    List.sum_replicate_nat]

theorem head?_crossed {fs gs : List Word} {f g : Word} (hf : fs.head? = some f)
    (hg : gs.head? = some g) : (crossed fs gs).head? = some (f ++ g) := by
  cases fs with
  | nil => cases hf
  | cons f' fs =>
    cases gs with
    | nil => cases hg
    | cons g' gs =>
      cases hf
      cases hg
      rfl

theorem length_le_of_mem_crossed {fs gs : List Word} {m n : Nat} (hf : ∀ f ∈ fs, f.length ≤ m)
    (hg : ∀ g ∈ gs, g.length ≤ n) : ∀ f ∈ crossed fs gs, f.length ≤ m + n := by
  intro f hmem
  obtain ⟨front, hfront, hmem⟩ := List.mem_flatMap.mp hmem
  obtain ⟨back, hback, rfl⟩ := List.mem_map.mp hmem
  rw [List.length_append]
  exact Nat.add_le_add (hf front hfront) (hg back hback)

/-! ### Zipped lists -/

/-- Every word with the one at the same place behind it, as far as both lists go. -/
def zipped (fs gs : List Word) : List Word := List.zipWith (· ++ ·) fs gs

theorem zipped_assoc (fs gs hs : List Word) :
    zipped (zipped fs gs) hs = zipped fs (zipped gs hs) := by
  simp only [zipped, List.zipWith_zipWith_left, List.zipWith_zipWith_right, List.append_assoc]

theorem length_zipped (fs gs : List Word) :
    (zipped fs gs).length = min fs.length gs.length :=
  List.length_zipWith

theorem map_reverse_zipped (fs gs : List Word) :
    (zipped fs gs).map List.reverse = zipped (gs.map List.reverse) (fs.map List.reverse) := by
  rw [zipped, zipped, List.map_zipWith, List.zipWith_map, List.zipWith_comm]
  simp only [List.reverse_append]

/-! ### Sets of forms -/

namespace Allomorphs

theorem flatten_union_form (a : Allomorphs) (letters : Word) :
    (a.union (.form letters)).flatten = a.flatten ++ [letters] :=
  rfl

theorem flatten_union_nested (a b : Allomorphs) :
    (a.union (.nested b)).flatten = a.flatten ++ b.flatten := by
  simp [union, flatten, ofEntries]

theorem cross_eq (a b : Allomorphs) : a.cross b = ofForms (crossed a.flatten b.flatten) := by
  rw [cross, forms_eq_flatten, forms_eq_flatten, crossed]

theorem flatten_cross (a b : Allomorphs) :
    (a.cross b).flatten = crossed a.flatten b.flatten := by
  rw [cross_eq, flatten_ofForms]

theorem flatten_zip (a b : Allomorphs) : (a.zip b).flatten = zipped a.flatten b.flatten := by
  rw [zip, flatten_ofForms, forms_eq_flatten, forms_eq_flatten, zipped]

/-- **The algebra of sets on their forms.**  Equal lists of forms can stand for one
    another everywhere.  A union on the right of a cross and a reversed cross have the
    same forms in another order, and everything else the same forms in the same order. -/
theorem forms_algebra (a b c : Allomorphs) :
    ((a.cross b).cross c).forms = (a.cross (b.cross c)).forms ∧
    (a.cross (only [])).forms = a.forms ∧
    ((only []).cross a).forms = a.forms ∧
    ((a.union (.nested b)).cross c).forms = (a.cross c).forms ++ (b.cross c).forms ∧
    (a.cross (b.union (.nested c))).forms.Perm ((a.cross b).forms ++ (a.cross c).forms) ∧
    ((a.zip b).zip c).forms = (a.zip (b.zip c)).forms ∧
    ((a.zip b).zip c).forms.length =
      min a.forms.length (min b.forms.length c.forms.length) ∧
    (a.zip b).reversed.forms = (b.reversed.zip a.reversed).forms ∧
    (a.cross b).reversed.forms.Perm (b.reversed.cross a.reversed).forms ∧
    a.reversed.reversed.forms = a.forms := by
  have hlength : ((a.zip b).zip c).flatten.length =
      min a.flatten.length (min b.flatten.length c.flatten.length) := by
    rw [flatten_zip, flatten_zip, length_zipped, length_zipped, min_assoc]
  have htwice := a.flatten_reversed_reversed
  simp only [forms_eq_flatten, flatten_cross, flatten_zip, flatten_union_nested,
    flatten_reversed, flatten_only] at hlength htwice ⊢
  exact ⟨crossed_assoc _ _ _, crossed_nil_right _, crossed_nil_left _,
    crossed_append_left _ _ _, crossed_append_right _ _ _, zipped_assoc _ _ _, hlength,
    map_reverse_zipped _ _, map_reverse_crossed _ _, htwice⟩

/-- In order, the two laws fail for two forms on the left. -/
example :
    let left := ofForms [['a'], ['b']]
    let right := (only ['x']).union (.nested (only ['y']))
    (left.cross right).forms ≠ (left.cross (only ['x'])).forms ++ (left.cross (only ['y'])).forms ∧
      (left.cross right).reversed.forms ≠ (right.reversed.cross left.reversed).forms := by
  decide

end Allomorphs

end WordFormation
