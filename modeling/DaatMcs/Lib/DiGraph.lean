/-
# Directed graphs with data on their nodes and edges

The `DiGraph` of networkx: the nodes and the edges are dictionaries, an edge
under its pair of ends. Adding an edge adds the ends that are missing, so no
edge leaves the graph (`ends`). A loop that adds at most one edge a turn
leaves the edges it stored, in order (`edges_foldl`).
-/
import DaatMcs.Lib.Dict

namespace DaatMcs

/-- Nodes and edges with their data; the ends of an edge are nodes. -/
structure DiGraph (ν α β : Type*) where
  nodes : Dict ν α
  edges : Dict (ν × ν) β
  ends : ∀ e ∈ edges.keys, e.1 ∈ nodes.keys ∧ e.2 ∈ nodes.keys

namespace DiGraph

variable {ν α β ι : Type*}

def empty : DiGraph ν α β := ⟨⟨[], List.nodup_nil⟩, ⟨[], List.nodup_nil⟩, by simp [Dict.keys]⟩

variable [DecidableEq ν]

/-- `G.add_node(n, ..)`. -/
def addNode (G : DiGraph ν α β) (n : ν) (a : α) : DiGraph ν α β where
  nodes := G.nodes.insert n a
  edges := G.edges
  ends e he :=
    ⟨Dict.mem_keys_insert.mpr (.inr (G.ends e he).1), Dict.mem_keys_insert.mpr (.inr (G.ends e he).2)⟩

/-- `G.add_edge(u, v, ..)`; a missing end becomes a node with no data of its own. -/
def addEdge [Inhabited α] (G : DiGraph ν α β) (u v : ν) (b : β) : DiGraph ν α β where
  nodes := (G.nodes.setDefault u default).setDefault v default
  edges := G.edges.insert (u, v) b
  ends e he := by
    rw [Dict.mem_keys_setDefault, Dict.mem_keys_setDefault, Dict.mem_keys_setDefault,
      Dict.mem_keys_setDefault]
    rcases Dict.mem_keys_insert.mp he with rfl | he
    · exact ⟨.inr (.inl rfl), .inl rfl⟩
    · exact ⟨.inr (.inr (G.ends e he).1), .inr (.inr (G.ends e he).2)⟩

@[simp]
theorem edges_addNode (G : DiGraph ν α β) (n : ν) (a : α) : (G.addNode n a).edges = G.edges := rfl

@[simp]
theorem edges_addEdge [Inhabited α] (G : DiGraph ν α β) (u v : ν) (b : β) :
    (G.addEdge u v b).edges = G.edges.insert (u, v) b := rfl

/-- A loop whose turns add the edge `edge x`, if there is one, and otherwise nodes only. -/
theorem edges_foldl {f : DiGraph ν α β → ι → DiGraph ν α β} {edge : ι → Option ((ν × ν) × β)}
    (hf : ∀ G x, (f G x).edges = G.edges.update (edge x).toList) :
    ∀ (l : List ι) (G : DiGraph ν α β),
      (l.foldl f G).edges = G.edges.update (l.filterMap edge)
  | [], _ => rfl
  | x :: l, G => by
    rw [List.foldl_cons, edges_foldl hf l (f G x), hf, ← Dict.update_append]
    cases hx : edge x <;> simp [hx]

end DiGraph
end DaatMcs
