/-
# The graph model

`GraphSAGEConv`, `ProgramSyscallGraph` and `GraphDataset` of `ml/training/graph/graph_model.py`,
over an ordered field; the normalisation of the last layer is that of a library and acts on
each row by itself.  The nodes of a dataset are programs, syscalls and resources, and a sample is
a transaction: an edge from its program to every syscall that it calls, and one from the syscall
to a resource.

A layer reads along the edges and not against them.  So two layers never carry anything to a
resource, and nothing of the program to its syscalls: in all samples the resources have the same
embedding, and a syscall has one that depends on its own resources only (`forward_of_sample`).
And a sample is seen as the proportions of its calls: neither their order nor how often all of
them are repeated makes a difference for any node (`forward_of_proportional`).
-/
import Mathlib.Algebra.Module.Pi
import Mathlib.Algebra.Order.Ring.Rat
import Mathlib.Data.Fin.Tuple.Basic
import SyscallMind.Lib.MeanAggregation

namespace SyscallMind

open Lib MeanAggregation

variable {K : Type*} [Field K] [LinearOrder K]

/-- A linear map of row vectors, with a bias. -/
def linear {m n : ℕ} (weight : Fin n → Fin m → K) (bias : Fin n → K) (v : Fin m → K) :
    Fin n → K :=
  fun o => ∑ i, v i * weight o i + bias o

def relu {n : ℕ} (v : Fin n → K) : Fin n → K := fun i => max (v i) 0

/-- Mean-aggregation GraphSAGE layer. -/
structure GraphSAGEConv (K : Type*) (inDim outDim : ℕ) where
  weight : Fin outDim → Fin (inDim + inDim) → K
  bias : Fin outDim → K

/-- The edges are pairs of a source and a target. -/
def GraphSAGEConv.forward {inDim outDim n : ℕ} (conv : GraphSAGEConv K inDim outDim)
    (x : Fin n → Fin inDim → K) (edgeIndex : List (Fin n × Fin n)) : Fin n → Fin outDim → K :=
  let agg := scatterAdd edgeIndex x
  let counts : Fin n → K := scatterAdd edgeIndex fun _ => 1
  let agg := fun v j => agg v j / max (counts v) 1
  fun v => relu (linear conv.weight conv.bias (Fin.append (x v) (agg v)))

/-- Two-layer GraphSAGE over the program-syscall-resource graph. -/
structure ProgramSyscallGraph (K : Type*) (numNodes embedDim : ℕ) where
  embedding : Fin numNodes → Fin embedDim → K
  conv1 : GraphSAGEConv K embedDim embedDim
  conv2 : GraphSAGEConv K embedDim embedDim
  norm : (Fin embedDim → K) → Fin embedDim → K

def ProgramSyscallGraph.forward {numNodes embedDim : ℕ}
    (m : ProgramSyscallGraph K numNodes embedDim) (edgeIndex : List (Fin numNodes × Fin numNodes)) :
    Fin numNodes → Fin embedDim → K :=
  let x := m.embedding
  let x := m.conv1.forward x edgeIndex
  let x := m.conv2.forward x edgeIndex
  fun v => m.norm (x v)

/-! ## The synthetic samples -/

/-- The numbers of the nodes of each kind. -/
structure GraphDataset where
  numPrograms : ℕ
  numSyscalls : ℕ
  numResources : ℕ

namespace GraphDataset

variable (g : GraphDataset)

def pOffset : ℕ := 0

def sOffset : ℕ := g.numPrograms

def rOffset : ℕ := g.numPrograms + g.numSyscalls

def totalNodes : ℕ := g.numPrograms + g.numSyscalls + g.numResources

def programNode (i : Fin g.numPrograms) : Fin g.totalNodes :=
  ⟨i + pOffset, by have := i.isLt; rw [totalNodes, pOffset]; omega⟩

def syscallNode (i : Fin g.numSyscalls) : Fin g.totalNodes :=
  ⟨i + g.sOffset, by have := i.isLt; rw [totalNodes, sOffset]; omega⟩

def resourceNode (i : Fin g.numResources) : Fin g.totalNodes :=
  ⟨i + g.rOffset, by have := i.isLt; rw [totalNodes, rOffset]; omega⟩

/-- The random numbers of a sample: the program, and a syscall and a resource for each call. -/
structure Draws where
  program : Fin g.numPrograms
  calls : List (Fin g.numSyscalls × Fin g.numResources)
  numCalls : 2 ≤ calls.length ∧ calls.length ≤ 10

variable {g}

/-- The two edges of a call. -/
def callEdges (program : Fin g.numPrograms) (call : Fin g.numSyscalls × Fin g.numResources) :
    List (Fin g.totalNodes × Fin g.totalNodes) :=
  [(g.programNode program, g.syscallNode call.1), (g.syscallNode call.1, g.resourceNode call.2)]

/-- A random transaction subgraph. -/
def generateSample (d : Draws g) : List (Fin g.totalNodes × Fin g.totalNodes) :=
  d.calls.flatMap (callEdges d.program)

end GraphDataset

/-! ## The model as a run of layers -/

section Forward

variable {n : ℕ}

/-- What a layer computes from the feature of a node and the mean. -/
def GraphSAGEConv.combine {inDim outDim : ℕ} (conv : GraphSAGEConv K inDim outDim)
    (own agg : Fin inDim → K) : Fin outDim → K :=
  relu (linear conv.weight conv.bias (Fin.append own agg))

lemma GraphSAGEConv.forward_eq {d : ℕ} (conv : GraphSAGEConv K d d) (x : Fin n → Fin d → K)
    (edges : List (Fin n × Fin n)) : conv.forward x edges = layer K conv.combine edges x := by
  funext v
  have hcounts : scatterAdd edges (fun _ => (1 : K)) v = ((outs edges v).length : K) := by
    rw [scatterAdd_apply]
    simp
  have hagg : (fun j => scatterAdd edges x v j / max (scatterAdd edges (fun _ => (1 : K)) v) 1) =
      average (K := K) (outs edges v) x := by
    funext j
    rw [hcounts, scatterAdd_apply, average, Pi.smul_apply, smul_eq_mul, div_eq_inv_mul]
  rw [GraphSAGEConv.forward, layer, combine, ← hagg]

lemma ProgramSyscallGraph.forward_eq {d : ℕ} (m : ProgramSyscallGraph K n d)
    (edges : List (Fin n × Fin n)) (v : Fin n) :
    m.forward edges v =
      m.norm (run K [m.conv1.combine, m.conv2.combine] edges m.embedding v) := by
  rw [forward, GraphSAGEConv.forward_eq, GraphSAGEConv.forward_eq]
  rfl

/-- The embedding of a node is determined by the proportions of its edges and of those of their
targets. -/
lemma ProgramSyscallGraph.forward_congr [IsStrictOrderedRing K] {d : ℕ}
    (m : ProgramSyscallGraph K n d) {edges edges' : List (Fin n × Fin n)} {v : Fin n}
    (hv : Proportional (outs edges v) (outs edges' v))
    (htargets : ∀ w ∈ outs edges v, Proportional (outs edges w) (outs edges' w)) :
    m.forward edges v = m.forward edges' v := by
  rw [forward_eq, forward_eq]
  congr 1
  refine run_eq_of_proportional (fun u hu => ?_) fun u _ => rfl
  rcases hu with rfl | ⟨w, hw, rfl⟩
  · exact hv
  · exact htargets u hw

end Forward

/-! ## The edges of a sample -/

namespace GraphDataset

variable {g : GraphDataset}

lemma programNode_ne_syscallNode (p : Fin g.numPrograms) (s : Fin g.numSyscalls) :
    g.programNode p ≠ g.syscallNode s := by
  intro h
  have hval : p.val + pOffset = s.val + g.sOffset := congrArg Fin.val h
  have := p.isLt
  rw [pOffset, sOffset] at hval
  omega

lemma resourceNode_ne_programNode (r : Fin g.numResources) (p : Fin g.numPrograms) :
    g.resourceNode r ≠ g.programNode p := by
  intro h
  have hval : r.val + g.rOffset = p.val + pOffset := congrArg Fin.val h
  have := p.isLt
  rw [pOffset, rOffset] at hval
  omega

lemma resourceNode_ne_syscallNode (r : Fin g.numResources) (s : Fin g.numSyscalls) :
    g.resourceNode r ≠ g.syscallNode s := by
  intro h
  have hval : r.val + g.rOffset = s.val + g.sOffset := congrArg Fin.val h
  have := s.isLt
  rw [rOffset, sOffset] at hval
  omega

lemma syscallNode_inj {s s' : Fin g.numSyscalls} : g.syscallNode s = g.syscallNode s' ↔ s = s' := by
  refine ⟨fun h => ?_, congrArg _⟩
  have hval : s.val + g.sOffset = s'.val + g.sOffset := congrArg Fin.val h
  exact Fin.ext (Nat.add_right_cancel hval)

lemma outs_generateSample (d : Draws g) (v : Fin g.totalNodes) :
    outs (generateSample d) v = d.calls.flatMap fun c => outs (callEdges d.program c) v := by
  rw [outs, generateSample, List.filter_flatMap, List.map_flatMap]
  rfl

/-- An edge leads from the program, and from the syscalls. -/
lemma outs_callEdges_of_ne {p : Fin g.numPrograms} {c : Fin g.numSyscalls × Fin g.numResources}
    {v : Fin g.totalNodes} (hp : g.programNode p ≠ v) :
    outs (callEdges p c) v = if g.syscallNode c.1 = v then [g.resourceNode c.2] else [] := by
  rw [outs, callEdges, List.filter_cons_of_neg (by simpa using hp)]
  by_cases hs : g.syscallNode c.1 = v <;> simp [hs]

/-- The edges of a node that is neither the program nor called. -/
lemma outs_of_untouched {d : Draws g} {v : Fin g.totalNodes} (hp : g.programNode d.program ≠ v)
    (hs : ∀ c ∈ d.calls, g.syscallNode c.1 ≠ v) : outs (generateSample d) v = [] := by
  rw [outs_generateSample, List.flatMap_eq_nil_iff]
  intro c hc
  rw [outs_callEdges_of_ne hp, if_neg (hs c hc)]

lemma outs_resourceNode (d : Draws g) (r : Fin g.numResources) :
    outs (generateSample d) (g.resourceNode r) = [] :=
  outs_of_untouched (resourceNode_ne_programNode r d.program).symm
    fun c _ => (resourceNode_ne_syscallNode r c.1).symm

/-- The resources that the calls of a syscall go to. -/
def resourcesOf (d : Draws g) (s : Fin g.numSyscalls) : List (Fin g.numResources) :=
  (d.calls.filter fun c => decide (c.1 = s)).map (·.2)

lemma outs_syscallNode (d : Draws g) (s : Fin g.numSyscalls) :
    outs (generateSample d) (g.syscallNode s) =
      (resourcesOf d s).flatMap fun r => [g.resourceNode r] := by
  rw [outs_generateSample, resourcesOf]
  induction d.calls with
  | nil => rfl
  | cons c calls ih =>
    rw [List.flatMap_cons, ih, outs_callEdges_of_ne (programNode_ne_syscallNode d.program s)]
    by_cases hs : c.1 = s
    · rw [if_pos (syscallNode_inj.mpr hs), List.filter_cons_of_pos (by simpa using hs)]
      rfl
    · rw [if_neg fun h => hs (syscallNode_inj.mp h), List.filter_cons_of_neg (by simpa using hs)]
      rfl

end GraphDataset

/-! ## What the model sees of a sample -/

open GraphDataset

/-- One feature, and all weights one. -/
def onesGraph (g : GraphDataset) : ProgramSyscallGraph ℚ g.totalNodes 1 where
  embedding v := fun _ => v.val
  conv1 := ⟨fun _ _ => 1, fun _ => 0⟩
  conv2 := ⟨fun _ _ => 1, fun _ => 0⟩
  norm := id

section Samples

variable [IsStrictOrderedRing K] {g : GraphDataset} {embedDim : ℕ}
  (m : ProgramSyscallGraph K g.totalNodes embedDim)

/-- **What two layers carry.**  Nothing reaches the resources and the nodes that the sample does
not touch, and nothing but its resources reaches a syscall. -/
theorem forward_of_sample (d : Draws g) :
    (∀ r, m.forward (generateSample d) (g.resourceNode r) = m.forward [] (g.resourceNode r)) ∧
      (∀ v, g.programNode d.program ≠ v → (∀ c ∈ d.calls, g.syscallNode c.1 ≠ v) →
        m.forward (generateSample d) v = m.forward [] v) ∧
      ∀ (d' : Draws g) (s : Fin g.numSyscalls),
        Proportional (resourcesOf d s) (resourcesOf d' s) →
          m.forward (generateSample d) (g.syscallNode s) =
            m.forward (generateSample d') (g.syscallNode s) := by
  have huntouched : ∀ v, outs (generateSample d) v = [] →
      m.forward (generateSample d) v = m.forward [] v := by
    intro v hv
    refine m.forward_congr ?_ fun w hw => ?_
    · rw [hv]
      exact .refl []
    · rw [hv] at hw
      exact absurd hw List.not_mem_nil
  refine ⟨fun r => huntouched _ (outs_resourceNode d r),
    fun v hp hs => huntouched v (outs_of_untouched hp hs), fun d' s h => ?_⟩
  refine m.forward_congr ?_ fun w hw => ?_
  · rw [outs_syscallNode, outs_syscallNode]
    exact h.flatMap _
  · rw [outs_syscallNode] at hw
    obtain ⟨r, -, hr⟩ := List.mem_flatMap.mp hw
    rw [List.mem_singleton.mp hr, outs_resourceNode, outs_resourceNode]
    exact .refl []

/-- **Samples of one program with the same proportions of calls are the same to the model.** -/
theorem forward_of_proportional {d d' : Draws g} (hprogram : d.program = d'.program)
    (hcalls : Proportional d.calls d'.calls) :
    m.forward (generateSample d) = m.forward (generateSample d') := by
  have houts : ∀ v, Proportional (outs (generateSample d) v) (outs (generateSample d') v) := by
    intro v
    rw [outs_generateSample, outs_generateSample, hprogram]
    exact hcalls.flatMap _
  funext v
  exact m.forward_congr (houts v) fun w _ => houts w

end Samples

/-- Two programs that call the first syscall with the same resource. -/
theorem forward_of_sample_two :
    let g : GraphDataset := ⟨2, 2, 2⟩
    let first : Draws g := ⟨0, [(0, 1), (1, 0)], by decide⟩
    let second : Draws g := ⟨1, [(1, 1), (0, 1)], by decide⟩
    (onesGraph g).forward (generateSample first) (g.programNode 1) =
        (onesGraph g).forward [] (g.programNode 1) ∧
      (onesGraph g).forward (generateSample first) (g.syscallNode 0) =
        (onesGraph g).forward (generateSample second) (g.syscallNode 0) := by
  intro g first second
  obtain ⟨-, huntouched, hsyscall⟩ := forward_of_sample (onesGraph g) first
  exact ⟨huntouched _ (by decide) (by decide), hsyscall second 0 (.refl [1])⟩

/-- Two calls, and the same two calls twice in the other order. -/
theorem forward_of_proportional_twice :
    let g : GraphDataset := ⟨1, 2, 1⟩
    let once : Draws g := ⟨0, [(0, 0), (1, 0)], by decide⟩
    let twice : Draws g := ⟨0, [(1, 0), (0, 0), (1, 0), (0, 0)], by decide⟩
    (onesGraph g).forward (generateSample once) = (onesGraph g).forward (generateSample twice) := by
  intro g once twice
  refine forward_of_proportional (onesGraph g) rfl ⟨2, 1, by decide, by decide, ?_⟩
  decide

end SyscallMind
