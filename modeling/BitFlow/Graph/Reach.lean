import BitFlow.Graph.Edit

/-!
# Reachable blocks and the flow of control

Two walks from the entry. `Graph.reachable` works on the blocks themselves. `Flow` is the bare
control flow -- names of blocks and edges between them -- and `Flow.reachable` walks through that.
Both list blocks in the order in which a depth-first walk meets them, first branch first.

`Flow` stands for a library of directed graphs, and says what is assumed of it, which is what its
documentation says. The nodes and edges of such a graph are those that were added. A depth-first
walk takes the top of a stack, skips it if it was visited, and else pushes those of its neighbours
that were not visited, in the order in which they are listed. Neighbours are listed by their edges,
the one that was added last first. `Graph.reachable` assumes nothing of the library.

Both walks keep a stack of blocks to visit. A block is expanded once and each expansion pushes at
most its successors, so one step for the entry and one for each edge empty the stack.
-/

namespace BitFlow

namespace Graph

/-! ## 1. The walk over blocks -/

/-- The walk with `stack` still to visit; `seen` lists the visited blocks, the last one first. -/
def walk (g : Graph) : Nat → List BlockId → List BlockId → List BlockId
  | 0, _, seen => seen.reverse
  | _ + 1, [], seen => seen.reverse
  | n + 1, b :: stack, seen =>
      match g.block? b with
      | none => g.walk n stack seen
      | some block =>
          if b ∈ seen then g.walk n stack seen
          else g.walk n (block.successors.filter (· ∉ b :: seen) ++ stack) (b :: seen)

/-- Enough steps for a walk over all blocks. -/
def walkSteps (g : Graph) : Nat :=
  g.blocks.toList.foldr (fun b n => b.successors.length + n) 2

/-- The blocks that control can reach from the entry, in depth-first order. -/
def reachable (g : Graph) : List BlockId := g.walk g.walkSteps [g.entry] []

end Graph

/-! ## 2. The bare flow of control -/

/-- The control flow of a graph: its blocks and the edges between them. -/
structure Flow where
  entry : BlockId
  blocks : List BlockId
  edges : List (BlockId × BlockId)
  deriving Repr

/-- The control flow of a graph: an edge for each distinct successor that exists. -/
def Graph.flow (g : Graph) : Flow where
  entry := g.entry
  blocks := g.blocks.toList.map Block.id
  edges := g.blocks.toList.flatMap fun b =>
    (b.successors.filter fun t => t ∈ g.blocks.toList.map Block.id).map fun t => (b.id, t)

namespace Flow

/-- The targets of the edges out of a block, the latest edge first: the order in which the library
    lists neighbours. -/
def targets (f : Flow) (b : BlockId) : List BlockId :=
  (f.edges.filterMap fun e => if e.1 = b then some e.2 else none).reverse

/-- The sources of the edges into a block, each once and in the order of the blocks. The library
    lists them edge by edge; here they are sorted, and repetitions are dropped. -/
def sources (f : Flow) (b : BlockId) : List BlockId :=
  Ranked.ofList (f.edges.filterMap fun e => if e.2 = b then some e.1 else none)

/-- The depth-first walk of the library, with `stack` still to visit; `seen` lists the visited
    blocks, the last one first. -/
def walk (f : Flow) : Nat → List BlockId → List BlockId → List BlockId
  | 0, _, seen => seen.reverse
  | _ + 1, [], seen => seen.reverse
  | n + 1, b :: stack, seen =>
      if b ∈ seen then f.walk n stack seen
      else
        let push (st : List BlockId) (t : BlockId) := if t ∈ b :: seen then st else t :: st
        f.walk n ((f.targets b).foldl push stack) (b :: seen)

/-- The blocks that control can reach from the entry, in depth-first order. -/
def reachable (f : Flow) : List BlockId :=
  if f.entry ∈ f.blocks then f.walk (2 + f.edges.length) [f.entry] [] else []

theorem mem_sources (f : Flow) (a b : BlockId) : a ∈ f.sources b ↔ (a, b) ∈ f.edges := by
  simp only [sources, Ranked.mem_ofList, List.mem_filterMap]
  constructor
  · rintro ⟨⟨x, y⟩, hm, h⟩
    split at h
    · rename_i hy
      cases h
      cases hy
      exact hm
    · cases h
  · intro hm
    exact ⟨(a, b), hm, by simp⟩

end Flow

end BitFlow
