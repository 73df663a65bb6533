/-
  WordFormation/Proofs/RuleText/Operands.lean
  ===========================================
  **What is read from a tree can be assembled.**

  Assembling asks one thing of an affix, that it has as many forms as its kind
  takes.  Reading makes affixes in four places, each time with the right number,
  and this holds for trees of any shape: where a tree does not fit, reading fails
  and makes nothing (`gives_readRule`).
-/
import WordFormation.Proofs.Assembling
import WordFormation.RuleText.Reading

namespace WordFormation

/-- All of the operations can be made into morphemes. -/
def AllAssemble (xs : List Operation) : Prop := ∀ x ∈ xs, x.Assembles

theorem allAssemble_nil : AllAssemble [] := by
  intro x hx
  cases hx

theorem allAssemble_cons {x : Operation} {xs : List Operation} (hx : x.Assembles)
    (hxs : AllAssemble xs) : AllAssemble (x :: xs) :=
  List.forall_mem_cons.mpr ⟨hx, hxs⟩

theorem allAssemble_singleton {x : Operation} (hx : x.Assembles) : AllAssemble [x] :=
  allAssemble_cons hx allAssemble_nil

theorem allAssemble_flatten {xss : List (List Operation)} (h : ∀ xs ∈ xss, AllAssemble xs) :
    AllAssemble xss.flatten := by
  intro x hx
  obtain ⟨xs, hxs, hx⟩ := List.mem_flatten.mp hx
  exact h xs hxs x hx

namespace RuleText.Tree

/-! ### Segments -/

theorem gives_readPostfixLinks (chain : Tree) (ts : List Tree) :
    Gives AllAssemble (readPostfixLinks chain ts) := by
  fun_induction readPostfixLinks chain ts with
  | case1 => exact gives_ok allAssemble_nil
  | case2 t => exact gives_error _
  | case3 mark form links ih =>
    refine gives_bind fun p => gives_bind fun letters => ih.bind fun xs hxs => gives_ok ?_
    exact allAssemble_cons ⟨_, rfl⟩ hxs

theorem gives_readPrefixLinks (ts : List Tree) : Gives AllAssemble (readPrefixLinks ts) := by
  fun_induction readPrefixLinks ts with
  | case1 => exact gives_ok allAssemble_nil
  | case2 tail => exact gives_bind fun links => gives_readPostfixLinks tail links
  | case3 form mark links ih =>
    refine gives_bind fun p => gives_bind fun letters => ih.bind fun xs hxs => gives_ok ?_
    exact allAssemble_cons ⟨_, rfl⟩ hxs

theorem gives_readCircumfix (t : Tree) : Gives Operation.Assembles t.readCircumfix := by
  refine gives_bind fun front => gives_bind fun a => gives_bind fun mark => gives_bind fun p => ?_
  exact gives_bind fun back => gives_bind fun b => gives_ok ⟨_, rfl⟩

theorem gives_readInterfix (t : Tree) : Gives Operation.Assembles t.readInterfix := by
  refine gives_bind fun first => gives_bind fun p => gives_bind fun form => gives_bind fun a => ?_
  exact gives_bind fun last => gives_bind fun q => gives_ok ⟨_, rfl⟩

theorem gives_readSegment (t : Tree) : Gives AllAssemble t.readSegment := by
  simp only [readSegment]
  split
  · exact gives_readPrefixLinks _
  · exact gives_readPostfixLinks _ _
  · exact (gives_readCircumfix _).bind fun x hx => gives_ok (allAssemble_singleton hx)
  · exact (gives_readInterfix _).bind fun x hx => gives_ok (allAssemble_singleton hx)
  · exact gives_error _

/-! ### Conditionals -/

theorem gives_readBranch (t : Tree) : Gives Branch.Assembles t.readBranch := by
  refine gives_bind fun children => gives_bind fun part => ?_
  cases part with
  | leaf text => exact gives_bind fun p => gives_ok (Branch.assembles_short p)
  | node label ts =>
    refine (gives_readSegment (node label ts)).bind fun xs hxs => gives_ok ?_
    exact Branch.assembles_operations hxs

theorem gives_readBranches (t : Tree) (ts : List Tree) :
    Gives (fun branches => branches.1.Assembles ∧ branches.2.Assembles) (t.readBranches ts) := by
  unfold readBranches
  split
  · next third fourth =>
    split
    · exact (gives_readBranch fourth).bind fun b hb => gives_ok ⟨Branch.assembles_identity, hb⟩
    · exact gives_error _
  · next met =>
    exact (gives_readBranch met).bind fun b hb => gives_ok ⟨hb, Branch.assembles_identity⟩
  · next met _ unmet =>
    refine (gives_readBranch met).bind fun b hb => ?_
    exact (gives_readBranch unmet).bind fun b' hb' => gives_ok ⟨hb, hb'⟩
  · exact gives_error _

theorem gives_readConditional (t : Tree) : Gives Operation.Assembles t.readConditional := by
  refine gives_bind fun first => gives_bind fun condition => ?_
  refine (gives_readBranches t t.children).bind fun branches hbranches => gives_ok ?_
  exact Operation.assembles_conditional condition hbranches.1 hbranches.2

/-! ### Groups and rules -/

theorem gives_readItem (t : Tree) : Gives AllAssemble t.readItem := by
  simp only [readItem]
  split
  · exact (gives_readConditional _).bind fun x hx => gives_ok (allAssemble_singleton hx)
  · exact gives_readSegment _

theorem gives_readGroup (t : Tree) : Gives AllAssemble t.readGroup := by
  refine gives_bind fun children => ?_
  have hparts := gives_mapM (fun part : Tree => gives_readItem part.unparenthesised)
  exact (hparts (items children)).bind fun xss hxss => gives_ok (allAssemble_flatten hxss)

theorem gives_readStages (t : Tree) :
    Gives (fun groups => ∀ g ∈ groups, AllAssemble g) t.readStages :=
  gives_bind fun _ => gives_mapM (fun part : Tree => gives_readGroup part.unparenthesised) _

theorem gives_readRule (t : Tree) : Gives (fun b => ∀ g ∈ b.groups, AllAssemble g) t.readRule := by
  refine gives_bind fun children => ?_
  split
  · next body _ =>
    refine (gives_readStages body).bind fun groups hgroups => ?_
    exact gives_ok hgroups
  · exact gives_error _

end RuleText.Tree

end WordFormation
