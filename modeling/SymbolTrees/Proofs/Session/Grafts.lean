import SymbolTrees.Proofs.Session.Absorb
import SymbolTrees.Proofs.Session.Account

/-!
# What draining puts below nodes

While a session is drained the children of a node change once at most: where the request is
reported that the node waits for, and then they are the nodes that are reported (`Chain.grows`). So
they stay until the session is drained (`Chain.holds`).
-/

namespace SymbolTrees.Session

variable {s t : Session} {id : TreeId} {ref : NodeRef} {results : List Resolution}
  {nodes : List Node}

/-- The children of a node, by what they are for good. -/
abbrev marks (s : Session) (ref : NodeRef) : List (Payload × Int × List Range) :=
  (s.node ref).children.map Node.mark

/-- The node has got the nodes that are reported for the request that it waited for. -/
def Grows (s : Session) (id : TreeId) (ref : NodeRef) (results : List Resolution) (t : Session) :
    Prop :=
  ∃ token target generation direction nodes,
    (⟨token, .expand id target generation direction, .children nodes⟩ : Resolution) ∈ results ∧
      (s.node ref).pending = some token ∧ (t.node ref).pending = none ∧
        t.marks ref = nodes.map Node.mark

/-- The children of a node are as they were, and it waits for no other request than before. -/
structure Stays (s : Session) (ref : NodeRef) (t : Session) : Prop where
  children : t.marks ref = s.marks ref
  pending : (t.node ref).pending = (s.node ref).pending ∨ (t.node ref).pending = none

theorem Stays.of_resembles (h : (s.node ref).Resembles (t.node ref)) : s.Stays ref t :=
  ⟨h.children, .inl h.pending⟩

/-- One step leaves the children of a node as they are, or the node has grown. -/
theorem Alters.grows (h : s.Sound) (ha : Alters s results t) (hm : s.Member id ref) :
    s.Stays ref t ∨ s.Grows id ref results t := by
  cases ha with
  | same registry =>
    have hn : t.node ref = s.node ref := congrArg (Registry.node · ref) registry
    exact .inl (.of_resembles (hn ▸ .refl _))
  | released member registry =>
    rcases (h.node_updateNode member (f := fun node => { node with pending := none })
      ⟨rfl, .inl rfl⟩ registry hm).2 with ⟨-, hres⟩ | ⟨-, he, hnew⟩
    · exact .inl (.of_resembles hres)
    · exact .inl ⟨by rw [marks, marks, hnew, he], .inr (by rw [hnew])⟩
  | @grown t token other target generation direction nodes member waits registry =>
    have hfits := h.fits (member.occurs h)
    rcases (h.node_updateNode member ⟨rfl, .inr (hfits.waiting (by rw [waits]; simp)).2.1⟩ registry
      hm).2 with ⟨-, hres⟩ | ⟨htree, he, hnew⟩
    · exact .inl (.of_resembles hres)
    · obtain rfl : other = id := member.tree.symm.trans (htree.symm.trans hm.tree)
      exact .inr ⟨token, target, generation, direction, nodes, List.mem_singleton.2 rfl, he ▸ waits,
        by rw [hnew], by rw [marks, hnew]⟩

/-- The node for which nodes are reported holds them. -/
theorem Alters.holds (h : s.Sound) (ha : Alters s results t) {r : Resolution} (hr : r ∈ results)
    {generation : Nat} {direction : CallDirection}
    (hp : r.purpose = .expand id ref generation direction) (hn : r.result = .children nodes) :
    t.Member id ref ∧ (t.node ref).pending = none ∧ t.marks ref = nodes.map Node.mark := by
  cases ha with
  | same registry bare => exact absurd hn (bare r hr nodes)
  | released member registry bare => exact absurd hn (bare r hr nodes)
  | grown member waits registry =>
    obtain rfl := List.mem_singleton.1 hr
    obtain ⟨rfl, rfl, -, -⟩ := Purpose.expand.inj hp
    obtain rfl := Result.children.inj hn
    have hfits := h.fits (member.occurs h)
    obtain ⟨hmember, ⟨hne, -⟩ | ⟨-, -, hnew⟩⟩ := h.node_updateNode member
      ⟨rfl, .inr (hfits.waiting (by rw [waits]; simp)).2.1⟩ registry member
    · exact absurd rfl hne
    · exact ⟨hmember, by rw [hnew], by rw [marks, hnew]⟩

theorem Progress.alters (h : s.Sound) (hp : Progress s results t) : Alters s results t := by
  cases hp with
  | effect effect => exact effect.alters h
  | expiry expiry => exact expiry.alters h

/-- **A node grows once**, by what is reported for the request that it waited for. -/
theorem Chain.grows (h : s.Sound) (hc : Chain Progress s results t) (hm : s.Member id ref) :
    s.Stays ref t ∨ s.Grows id ref results t := by
  induction hc with
  | refl => exact .inl (.of_resembles (.refl _))
  | log _ _ ih => exact ih.imp_left fun hstays => ⟨hstays.children, hstays.pending⟩
  | @tail results more t u before next ih =>
    have ht := before.sound lawful_progress h
    have hstep := (next.alters ht).grows ht (before.member lawful_progress h hm).1
    rcases ih with hstays | ⟨token, target, generation, direction, nodes, hr, hw, hidle, hmarks⟩
    · rcases hstep with hstep | ⟨token, target, generation, direction, nodes, hr, hw, hidle, hmarks⟩
      · refine .inl ⟨hstep.children.trans hstays.children, ?_⟩
        rcases hstep.pending with he | hnone
        · rw [he]
          exact hstays.pending
        · exact .inr hnone
      · refine .inr ⟨token, target, generation, direction, nodes, List.mem_append_right _ hr, ?_,
          hidle, hmarks⟩
        rcases hstays.pending with he | hnone
        · exact he ▸ hw
        · rw [hnone] at hw
          cases hw
    · refine .inr ⟨token, target, generation, direction, nodes, List.mem_append_left _ hr, hw, ?_⟩
      rcases hstep with hstep | ⟨_, _, _, _, _, -, hw', -⟩
      · refine ⟨?_, hstep.children.trans hmarks⟩
        rcases hstep.pending with he | hnone
        · exact he.trans hidle
        · exact hnone
      · rw [hidle] at hw'
        cases hw'

/-- **What is reported for a node stands below it** once the session is drained. -/
theorem Chain.holds (h : s.Sound) (hc : Chain Progress s results t) {r : Resolution}
    (hr : r ∈ results) {generation : Nat} {direction : CallDirection}
    (hp : r.purpose = .expand id ref generation direction) (hn : r.result = .children nodes) :
    t.Member id ref ∧ (t.node ref).pending = none ∧ t.marks ref = nodes.map Node.mark := by
  induction hc with
  | refl => cases hr
  | log _ _ ih =>
    obtain ⟨hm, hrest⟩ := ih hr
    exact ⟨⟨hm.isOpen, hm.tree, hm.contains⟩, hrest⟩
  | @tail results more t u before next ih =>
    have ht := before.sound lawful_progress h
    have halters := next.alters ht
    rcases List.mem_append.1 hr with hr | hr
    · obtain ⟨hm, hidle, hmarks⟩ := ih hr
      refine ⟨(halters.member ht hm).1, ?_⟩
      rcases halters.grows ht hm with hstep | ⟨_, _, _, _, _, -, hw, -⟩
      · refine ⟨?_, hstep.children.trans hmarks⟩
        rcases hstep.pending with he | hnone
        · exact he.trans hidle
        · exact hnone
      · rw [hidle] at hw
        cases hw
    · exact halters.holds ht hr hp hn

end SymbolTrees.Session
