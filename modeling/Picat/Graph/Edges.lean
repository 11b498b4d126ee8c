import Picat.Graph.Scc
import Picat.Lib.BoolSums

/-!
# The vertices and edges of a graph as maps

* `EntriesAgree` : the entries of one ordered pair have one value.
-/

namespace Picat.Graph
open Finset

variable {V ι : Type} [DecidableEq V]

/-- `VMap`. -/
def putVertices (Vs : List (V × Boolean ι)) : V → Option (Boolean ι) :=
  Vs.foldl (fun m p => Function.update m p.1 (some p.2)) fun _ => none

/-! ## The vertices -/

section
variable (Vs : List (V × Boolean ι)) {v : V} (h : v ∉ Vs.map Prod.fst)
include Vs h

theorem foldl_put_of_notMem (m : V → Option (Boolean ι)) :
    Vs.foldl (fun (m : V → Option (Boolean ι)) p => Function.update m p.1 (some p.2)) m v = m v := by
  induction Vs generalizing m with
  | nil => rfl
  | cons p Vs ih =>
    rw [List.map_cons, List.mem_cons, not_or] at h
    rw [List.foldl_cons, ih h.2, Function.update_of_ne h.1]

theorem putVertices_eq_none : putVertices Vs v = none := foldl_put_of_notMem Vs h _

end

theorem putVertices_eq (Vs : List (V × Boolean ι)) (hnodup : (Vs.map Prod.fst).Nodup) {v : V} {b : Boolean ι}
    (h : (v, b) ∈ Vs) : putVertices Vs v = some b := by
  unfold putVertices
  generalize (fun _ : V => (none : Option (Boolean ι))) = m
  induction Vs generalizing m with
  | nil => exact absurd h List.not_mem_nil
  | cons p Vs ih =>
    rw [List.map_cons, List.nodup_cons] at hnodup
    rw [List.foldl_cons]
    rcases List.mem_cons.1 h with rfl | h
    · rw [foldl_put_of_notMem _ hnodup.1, Function.update_self]
    · exact ih hnodup.2 h _

section
variable {Vs : List (V × Boolean ι)} {σ : ι → Bool}

section
variable (hnodup : (Vs.map Prod.fst).Nodup) {v : V}
include hnodup

theorem vMap_eq (hv : v ∈ Vs.map Prod.fst) :
    ∃ b, (v, b) ∈ Vs ∧ (putVertices Vs v).map (Boolean.val σ) = some (b.val σ) := by
  obtain ⟨⟨v, b⟩, hmem, rfl⟩ := List.mem_map.1 hv
  refine ⟨b, hmem, ?_⟩
  rw [putVertices_eq Vs hnodup hmem]
  rfl

theorem vMap_eq_true_iff : (putVertices Vs v).map (Boolean.val σ) = some true ↔ InVertex Vs σ v := by
  constructor
  · intro h
    have hv : v ∈ Vs.map Prod.fst := by
      by_contra hno
      rw [putVertices_eq_none Vs hno] at h
      exact absurd h (by simp)
    obtain ⟨b, hmem, hb⟩ := @vMap_eq _ _ _ Vs σ hnodup v hv
    rw [hb, Option.some.injEq] at h
    exact ⟨b, hmem, h⟩
  · intro hp
    obtain ⟨b, hmem, hb⟩ := hp
    rw [putVertices_eq Vs hnodup hmem, Option.map_some, hb]

theorem vertexVal_iff {b : Boolean ι} (h : (v, b) ∈ Vs) : b.val σ = true ↔ InVertex Vs σ v := by
  rw [← vMap_eq_true_iff hnodup, putVertices_eq Vs hnodup h, Option.map_some, Option.some.injEq]

end

end

/-! ## The edges -/

/-- `EMap`, `AMap`, the unified Booleans and the edges of which `B #=> B1` and `B #=> B2` are posted. -/
structure EdgeTables (V ι : Type) where
  eMap : V → V → Option (Boolean ι)
  aMap : V → List (V × Boolean ι)
  equal : List (Boolean ι × Boolean ι)
  posted : List (V × V × Boolean ι)

def EdgeTables.empty : EdgeTables V ι := ⟨fun _ _ => none, fun _ => [], [], []⟩

/-- `post` says for which edges the ends are posted. -/
def registerIn (post : V → V → Bool) (r : EdgeTables V ι) (e : V × V × Boolean ι) : EdgeTables V ι :=
  match r.eMap e.1 e.2.1 with
  | some b => ⟨r.eMap, r.aMap, (e.2.2, b) :: r.equal, r.posted⟩
  | none =>
    ⟨fun u v => if u = e.1 ∧ v = e.2.1 then some e.2.2 else r.eMap u v,
      Function.update r.aMap e.1 ((e.2.1, e.2.2) :: r.aMap e.1), r.equal,
      if post e.1 e.2.1 then e :: r.posted else r.posted⟩

def registerDEdge : EdgeTables V ι → V × V × Boolean ι → EdgeTables V ι := registerIn fun _ _ => true

/-- `register_edge`; `lt` is the order `@<`. -/
def registerEdge (lt : V → V → Bool) : EdgeTables V ι → V × V × Boolean ι → EdgeTables V ι := registerIn lt

/-- The loop over the edges in `path_d`. -/
def registerDEdges (Es : List (V × V × Boolean ι)) : EdgeTables V ι := Es.foldl registerDEdge EdgeTables.empty

def bothWays (Es : List (V × V × Boolean ι)) : List (V × V × Boolean ι) :=
  Es.flatMap fun e => [e, (e.2.1, e.1, e.2.2)]

/-- The loop over the edges in `path` and `acyclic`. -/
def registerEdges (lt : V → V → Bool) (Es : List (V × V × Boolean ι)) : EdgeTables V ι :=
  (bothWays Es).foldl (registerEdge lt) EdgeTables.empty

/-! ## What is known of the tables -/

structure Registered (post : V → V → Bool) (L : List (V × V × Boolean ι)) (r : EdgeTables V ι) : Prop where
  listed : ∀ u v b, r.eMap u v = some b → (u, v, b) ∈ L
  entry : ∀ u v b, (u, v, b) ∈ L → ∃ b0, r.eMap u v = some b0 ∧ (b0 = b ∨ (b, b0) ∈ r.equal)
  equal : ∀ b b0, (b, b0) ∈ r.equal → ∃ u v, r.eMap u v = some b0 ∧ (u, v, b) ∈ L
  adj : ∀ u v b, (v, b) ∈ r.aMap u ↔ r.eMap u v = some b
  nodup : ∀ u, ((r.aMap u).map Prod.fst).Nodup
  posted : ∀ u v b, (u, v, b) ∈ r.posted ↔ r.eMap u v = some b ∧ post u v = true

section
variable {post : V → V → Bool} {L : List (V × V × Boolean ι)} {r : EdgeTables V ι}

omit [DecidableEq V] in
theorem Registered.empty : Registered post [] (EdgeTables.empty : EdgeTables V ι) := by
  refine ⟨?_, ?_, ?_, ?_, fun _ => List.nodup_nil, ?_⟩ <;> simp [EdgeTables.empty]

theorem Registered.registerIn (h : Registered post L r) (e : V × V × Boolean ι) :
    Registered post (L ++ [e]) (registerIn post r e) := by
  obtain ⟨a, c, b⟩ := e
  have hold : ∀ {x : V × V × Boolean ι}, x ∈ L → x ∈ L ++ [(a, c, b)] := fun hx => List.mem_append_left _ hx
  have hnew : (a, c, b) ∈ L ++ [(a, c, b)] := List.mem_append_right _ (List.mem_singleton.2 rfl)
  unfold Graph.registerIn
  cases h0 : r.eMap a c with
  | some b0 =>
    dsimp only
    refine ⟨fun u v b' hb => hold (h.listed u v b' hb), ?_, ?_, h.adj, h.nodup, h.posted⟩
    · intro u v b' hmem
      rcases List.mem_append.1 hmem with hmem | hmem
      · obtain ⟨b1, h1, heq | heq⟩ := h.entry u v b' hmem
        · exact ⟨b1, h1, .inl heq⟩
        · exact ⟨b1, h1, .inr (List.mem_cons_of_mem _ heq)⟩
      · simp only [List.mem_singleton, Prod.mk.injEq] at hmem
        obtain ⟨rfl, rfl, rfl⟩ := hmem
        exact ⟨b0, h0, .inr List.mem_cons_self⟩
    · intro b1 b2 hmem
      rcases List.mem_cons.1 hmem with heq | hmem
      · simp only [Prod.mk.injEq] at heq
        obtain ⟨rfl, rfl⟩ := heq
        exact ⟨a, c, h0, hnew⟩
      · obtain ⟨u, v, h1, h2⟩ := h.equal b1 b2 hmem
        exact ⟨u, v, h1, hold h2⟩
  | none =>
    -- the entries of the other pairs stay
    have hput : ∀ u v b', (if u = a ∧ v = c then some b else r.eMap u v) = some b' ↔
        (u = a ∧ v = c ∧ b = b') ∨ r.eMap u v = some b' := by
      intro u v b'
      split_ifs with huv
      · obtain ⟨rfl, rfl⟩ := huv
        rw [h0]
        simp
      · exact (or_iff_right fun hh => huv ⟨hh.1, hh.2.1⟩).symm
    have hfresh : ∀ b', (c, b') ∉ r.aMap a := by
      intro b' hmem
      rw [h.adj, h0] at hmem
      exact Option.some_ne_none _ hmem.symm
    refine ⟨?_, ?_, ?_, ?_, ?_, ?_⟩
    · intro u v b' hb
      rcases (hput u v b').1 hb with ⟨rfl, rfl, rfl⟩ | hb
      · exact hnew
      · exact hold (h.listed u v b' hb)
    · intro u v b' hmem
      rcases List.mem_append.1 hmem with hmem | hmem
      · obtain ⟨b1, h1, h2⟩ := h.entry u v b' hmem
        exact ⟨b1, (hput u v b1).2 (.inr h1), h2⟩
      · simp only [List.mem_singleton, Prod.mk.injEq] at hmem
        obtain ⟨rfl, rfl, rfl⟩ := hmem
        exact ⟨b', (hput u v b').2 (.inl ⟨rfl, rfl, rfl⟩), .inl rfl⟩
    · intro b1 b2 hmem
      obtain ⟨u, v, h1, h2⟩ := h.equal b1 b2 hmem
      exact ⟨u, v, (hput u v b2).2 (.inr h1), hold h2⟩
    · intro u v b'
      rw [hput u v b', ← h.adj]
      dsimp only
      by_cases hu : u = a
      · subst hu
        rw [Function.update_self, List.mem_cons, Prod.mk.injEq]
        refine or_congr_left ⟨?_, ?_⟩
        · intro hboth
          obtain ⟨rfl, rfl⟩ := hboth
          exact ⟨rfl, rfl, rfl⟩
        · intro hboth
          obtain ⟨-, rfl, rfl⟩ := hboth
          exact ⟨rfl, rfl⟩
      · rw [Function.update_of_ne hu, or_iff_right]
        exact fun hno => hu hno.1
    · intro u
      dsimp only
      by_cases hu : u = a
      · subst hu
        rw [Function.update_self, List.map_cons, List.nodup_cons]
        refine ⟨?_, h.nodup u⟩
        intro hmem
        obtain ⟨⟨v, b'⟩, hmem, heq⟩ := List.mem_map.1 hmem
        change v = c at heq
        rw [heq] at hmem
        exact hfresh b' hmem
      · rw [Function.update_of_ne hu]
        exact h.nodup u
    · intro u v b'
      dsimp only
      rw [hput u v b', or_and_right, ← h.posted]
      have hcons : (u, v, b') = (a, c, b) ↔ u = a ∧ v = c ∧ b = b' := by
        simp only [Prod.mk.injEq]
        exact ⟨fun hh => ⟨hh.1, hh.2.1, hh.2.2.symm⟩, fun hh => ⟨hh.1, hh.2.1, hh.2.2.symm⟩⟩
      split_ifs with hpost
      · rw [List.mem_cons, hcons]
        refine or_congr_left ⟨fun hh => ⟨hh, ?_⟩, And.left⟩
        rw [hh.1, hh.2.1]
        exact hpost
      · rw [or_iff_right]
        intro hboth
        obtain ⟨⟨rfl, rfl, -⟩, hp⟩ := hboth
        exact hpost hp

theorem Registered.foldl (h : Registered post L r) (l : List (V × V × Boolean ι)) :
    Registered post (L ++ l) (l.foldl (Graph.registerIn post) r) := by
  induction l generalizing L r with
  | nil =>
    rw [List.append_nil]
    exact h
  | cons e l ih =>
    have h' := ih (h.registerIn e)
    rw [List.append_assoc] at h'
    exact h'

theorem registered_d (Es : List (V × V × Boolean ι)) : Registered (fun _ _ => true) Es (registerDEdges Es) :=
  Registered.empty.foldl Es

theorem registered_both (lt : V → V → Bool) (Es : List (V × V × Boolean ι)) :
    Registered lt (bothWays Es) (registerEdges lt Es) := Registered.empty.foldl (bothWays Es)

/-! ## Values -/

def EntriesAgree (L : List (V × V × Boolean ι)) (σ : ι → Bool) : Prop :=
  ∀ u v b b', (u, v, b) ∈ L → (u, v, b') ∈ L → b.val σ = b'.val σ

variable {σ : ι → Bool}

omit [DecidableEq V] in
theorem Registered.agree_iff (h : Registered post L r) : (∀ p ∈ r.equal, p.1.val σ = p.2.val σ) ↔ EntriesAgree L σ := by
  constructor
  · intro heq
    have hval : ∀ u v b, (u, v, b) ∈ L → ∃ b0, r.eMap u v = some b0 ∧ b.val σ = b0.val σ := by
      intro u v b hmem
      obtain ⟨b0, h0, rfl | hb⟩ := h.entry u v b hmem
      · exact ⟨b0, h0, rfl⟩
      · exact ⟨b0, h0, heq _ hb⟩
    intro u v b b' hb hb'
    obtain ⟨b0, h0, hv⟩ := hval u v b hb
    obtain ⟨b1, h1, hv'⟩ := hval u v b' hb'
    rw [h0, Option.some.injEq] at h1
    rw [hv, hv', h1]
  · rintro hagree ⟨b, b0⟩ hmem
    obtain ⟨u, v, h0, hb⟩ := h.equal b b0 hmem
    exact hagree u v b b0 hb (h.listed u v b0 h0)

omit [DecidableEq V] in
theorem Registered.val_iff (h : Registered post L r) (hagree : EntriesAgree L σ) {u v : V} {b : Boolean ι}
    (hb : r.eMap u v = some b) : b.val σ = true ↔ InEdge L σ u v := by
  constructor
  · intro hval
    exact ⟨b, h.listed u v b hb, hval⟩
  · intro hp
    obtain ⟨b', hmem, hval⟩ := hp
    rw [hagree u v b b' (h.listed u v b hb) hmem, hval]

omit [DecidableEq V] in
theorem Registered.exists_of_inEdge (h : Registered post L r) (hagree : EntriesAgree L σ) {u v : V}
    (huv : InEdge L σ u v) : ∃ b, r.eMap u v = some b ∧ b.val σ = true := by
  obtain ⟨b, hmem, -⟩ := id huv
  obtain ⟨b0, h0, -⟩ := h.entry u v b hmem
  exact ⟨b0, h0, (h.val_iff hagree h0).2 huv⟩

def sumNeibs (r : EdgeTables V ι) (σ : ι → Bool) (v : V) : ℕ := (r.aMap v).countP fun p => p.2.val σ

def neibsIn (L : List (V × V × Boolean ι)) (σ : ι → Bool) (v : V) : Finset V :=
  ((L.filter fun e => e.1 = v ∧ e.2.2.val σ = true).map fun e => e.2.1).toFinset

theorem mem_neibsIn {v u : V} : u ∈ neibsIn L σ v ↔ InEdge L σ v u := by
  unfold neibsIn InEdge
  simp

section
variable (h : Registered post L r) (hagree : EntriesAgree L σ) (v : V)
include h hagree v

theorem Registered.sumNeibs_eq : sumNeibs r σ v = (neibsIn L σ v).card := by
  have hnodup : (((r.aMap v).filter fun p => p.2.val σ).map Prod.fst).Nodup :=
    (List.filter_sublist.map Prod.fst).nodup (h.nodup v)
  have hset : neibsIn L σ v = (((r.aMap v).filter fun p => p.2.val σ).map Prod.fst).toFinset := by
    ext u
    rw [mem_neibsIn, List.mem_toFinset, List.mem_map]
    constructor
    · intro hu
      obtain ⟨b, hb, hval⟩ := h.exists_of_inEdge hagree hu
      exact ⟨(u, b), List.mem_filter.2 ⟨(h.adj v u b).2 hb, hval⟩, rfl⟩
    · intro hp
      obtain ⟨⟨u, b⟩, hmem, rfl⟩ := hp
      obtain ⟨hmem, hval⟩ := List.mem_filter.1 hmem
      exact (h.val_iff hagree ((h.adj v u b).1 hmem)).1 hval
  unfold sumNeibs
  rw [hset, List.toFinset_card_of_nodup hnodup, List.length_map, List.countP_eq_length_filter]

theorem Registered.sumNeibs_eq_one : sumNeibs r σ v = 1 ↔ ∃! u, InEdge L σ v u := by
  rw [h.sumNeibs_eq hagree, card_eq_one, singleton_iff_unique_mem]
  simp only [mem_neibsIn]

theorem Registered.sumNeibs_eq_two : sumNeibs r σ v = 2 ↔
      ∃ a b, a ≠ b ∧ InEdge L σ v a ∧ InEdge L σ v b ∧ ∀ c, InEdge L σ v c → c = a ∨ c = b := by
  rw [h.sumNeibs_eq hagree, card_eq_two]
  constructor
  · intro hp
    obtain ⟨a, b, hab, hset⟩ := hp
    have hmem : ∀ c, InEdge L σ v c ↔ c = a ∨ c = b := by
      intro c
      rw [← mem_neibsIn, hset, mem_insert, mem_singleton]
    exact ⟨a, b, hab, (hmem a).2 (.inl rfl), (hmem b).2 (.inr rfl), fun c hc => (hmem c).1 hc⟩
  · intro hp
    obtain ⟨a, b, hab, ha, hb, hall⟩ := hp
    refine ⟨a, b, hab, ?_⟩
    ext c
    rw [mem_neibsIn, mem_insert, mem_singleton]
    constructor
    · exact hall c
    · rintro (rfl | rfl)
      · exact ha
      · exact hb

end

variable {Es : List (V × V × Boolean ι)}

omit [DecidableEq V] in
theorem mem_bothWays {u v : V} {b : Boolean ι} : (u, v, b) ∈ bothWays Es ↔ Listed Es u v b := by
  unfold bothWays Listed
  rw [List.mem_flatMap]
  constructor
  · intro h
    obtain ⟨⟨a, c, b'⟩, hmem, hin⟩ := h
    simp only [List.mem_cons, Prod.mk.injEq, List.not_mem_nil, or_false] at hin
    rcases hin with ⟨rfl, rfl, rfl⟩ | ⟨rfl, rfl, rfl⟩
    · exact .inl hmem
    · exact .inr hmem
  · rintro (hmem | hmem)
    · exact ⟨_, hmem, List.mem_cons_self⟩
    · exact ⟨_, hmem, List.mem_cons_of_mem _ List.mem_cons_self⟩

omit [DecidableEq V] in
theorem entriesAgree_bothWays : EntriesAgree (bothWays Es) σ ↔ PairsAgree Es σ := by
  unfold EntriesAgree PairsAgree
  simp only [mem_bothWays]

omit [DecidableEq V] in
theorem inEdge_bothWays {u v : V} : InEdge (bothWays Es) σ u v ↔ UEdge Es σ u v := by
  unfold InEdge UEdge
  simp only [mem_bothWays, Listed]
  constructor
  · intro h
    obtain ⟨b, hmem | hmem, hb⟩ := h
    · exact .inl ⟨b, hmem, hb⟩
    · exact .inr ⟨b, hmem, hb⟩
  · rintro (⟨b, hmem, hb⟩ | ⟨b, hmem, hb⟩)
    · exact ⟨b, .inl hmem, hb⟩
    · exact ⟨b, .inr hmem, hb⟩

/-- `B #=> B1` and `B #=> B2` for the edges in the tables; a vertex that is not in `VMap` raises an error. -/
def EndsPosted (Vs : List (V × Boolean ι)) (σ : ι → Bool) (r : EdgeTables V ι) : Prop :=
  ∀ v1 v2 b, (v1, v2, b) ∈ r.posted → ∃ b1 b2, (putVertices Vs v1).map (Boolean.val σ) = some b1 ∧
    (putVertices Vs v2).map (Boolean.val σ) = some b2 ∧ (b.val σ = true → b1 = true) ∧ (b.val σ = true → b2 = true)

variable {Vs : List (V × Boolean ι)}

section
variable (h : Registered post L r) (hnodup : (Vs.map Prod.fst).Nodup)
include h hnodup

theorem Registered.endsPosted (hends : Joins Vs L)
    (hagree : EntriesAgree L σ) (hjoin : ∀ u v, InEdge L σ u v → InVertex Vs σ u ∧ InVertex Vs σ v) :
    EndsPosted Vs σ r := by
  intro v1 v2 b hmem
  have hb := ((h.posted v1 v2 b).1 hmem).1
  obtain ⟨hv1, hv2⟩ := hends v1 v2 b (h.listed v1 v2 b hb)
  obtain ⟨c1, hc1, h1⟩ := @vMap_eq _ _ _ Vs σ hnodup v1 hv1
  obtain ⟨c2, hc2, h2⟩ := @vMap_eq _ _ _ Vs σ hnodup v2 hv2
  refine ⟨_, _, h1, h2, ?_, ?_⟩
  · intro hval
    exact (vertexVal_iff hnodup hc1).2 (hjoin v1 v2 ((h.val_iff hagree hb).1 hval)).1
  · intro hval
    exact (vertexVal_iff hnodup hc2).2 (hjoin v1 v2 ((h.val_iff hagree hb).1 hval)).2

theorem Registered.ends (hagree : EntriesAgree L σ)
    (hposted : EndsPosted Vs σ r) {u v : V} (hpost : post u v = true) (huv : InEdge L σ u v) :
    InVertex Vs σ u ∧ InVertex Vs σ v := by
  obtain ⟨b, hb, hval⟩ := h.exists_of_inEdge hagree huv
  obtain ⟨b1, b2, h1, h2, hb1, hb2⟩ := hposted u v b ((h.posted u v b).2 ⟨hb, hpost⟩)
  rw [hb1 hval] at h1
  rw [hb2 hval] at h2
  exact ⟨(vMap_eq_true_iff hnodup).1 h1, (vMap_eq_true_iff hnodup).1 h2⟩

end

end

end Picat.Graph
