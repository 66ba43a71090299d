/-
The config file as text (`loadConfig` of `src/cluster/cluster_manager.cpp`): which texts name which
nodes. A line counts if it has an id, a host and a port between blanks and does not begin with `#`;
what follows the port does not matter (`readConfig_iff`). Nodes whose files name the same members, in
any layout and order, route every key alike (`files_agree`).
-/
import KvStore.Cluster.Membership
import KvStore.Lib.Text

namespace KvStore

open Bytes Text

/-! ## The reader -/

/-- One turn of the loop on a line of the file; `iss >> id >> host >> port`. -/
def parseLine (line : Str) : Option ConfigLine :=
  if line = [] ∨ line.head? = some 35 then none
  else
    (word line).bind fun (id, s) =>
      (word s).bind fun (host, s) =>
        (number (2 ^ 16) s).map fun (port, _) => ⟨id, host, UInt16.ofNat port⟩

/-- The lines of the file that name nodes. -/
def readConfig (text : Str) : List ConfigLine := (lines text).filterMap parseLine

/-- `ClusterManager(self_id, config_path)` on a file with that text. -/
def ClusterManager.ofFile (selfId : NodeId) (text : Str) : ClusterManager := loadConfig selfId (readConfig text)

/-! ## The format -/

/-- A line that names a node. -/
inductive NodeLine : Str → ConfigLine → Prop
  | mk {b₀ id b₁ host b₂ ds rest : Str} {sign : Sign} (blank₀ : Blank b₀) (word_id : IsWord id) (blank₁ : Blank b₁)
      (apart₁ : b₁ ≠ []) (word_host : IsWord host) (blank₂ : Blank b₂) (apart₂ : b₂ ≠ []) (numeral : IsNumeral ds)
      (fits : value ds < 2 ^ 16) (ends : ∀ b ∈ rest.head?, isDigit b = false)
      (noComment : (b₀ ++ id).head? ≠ some 35) :
      NodeLine (b₀ ++ (id ++ (b₁ ++ (host ++ (b₂ ++ (sign.text ++ (ds ++ rest)))))))
        ⟨id, host, UInt16.ofNat (sign.apply (2 ^ 16) (value ds))⟩

/-- A file that names these nodes: line by line, each naming the next one or none. -/
inductive Describes : Str → List ConfigLine → Prop
  | last {line : Str} : 10 ∉ line → (∀ c, ¬ NodeLine line c) → Describes line []
  | lastNode {line : Str} {c : ConfigLine} : 10 ∉ line → NodeLine line c → Describes line [c]
  | skip {line text : Str} {config : List ConfigLine} :
      10 ∉ line → (∀ c, ¬ NodeLine line c) → Describes text config → Describes (line ++ 10 :: text) config
  | node {line text : Str} {c : ConfigLine} {config : List ConfigLine} :
      10 ∉ line → NodeLine line c → Describes text config → Describes (line ++ 10 :: text) (c :: config)

/-! ## The reader accepts the format -/

theorem parseLine_iff {line : Str} {c : ConfigLine} : parseLine line = some c ↔ NodeLine line c := by
  unfold parseLine
  constructor
  · intro h
    split at h
    · cases h
    · rename_i hline
      obtain ⟨⟨id, s⟩, hid, h⟩ := Option.bind_eq_some_iff.1 h
      obtain ⟨⟨host, s'⟩, hhost, h⟩ := Option.bind_eq_some_iff.1 h
      obtain ⟨⟨port, rest⟩, hport, rfl⟩ := Option.map_eq_some_iff.1 h
      obtain ⟨b₀, rfl, hb₀, hidw, hs⟩ := word_iff.1 hid
      obtain ⟨b₁, rfl, hb₁, hhostw, hs'⟩ := word_iff.1 hhost
      obtain ⟨b₂, sign, ds, rfl, hb₂, hds, hlt, hrest, rfl⟩ := number_iff.1 hport
      -- the words are apart from what follows them, because they end at a blank
      have happart₁ : b₁ ≠ [] := blanks_ne_nil hs (by simp [hhostw.1]) hhostw.head?
      have happart₂ : b₂ ≠ [] := blanks_ne_nil hs' (by simp [hds.1]) hds.head?
      refine .mk hb₀ hidw hb₁ happart₁ hhostw hb₂ happart₂ hds hlt hrest ?_
      intro hhead
      refine hline (Or.inr ?_)
      rw [← List.append_assoc, List.head?_append, hhead]
      rfl
  · rintro ⟨hb₀, hidw, hb₁, happart₁, hhostw, hb₂, happart₂, hds, hlt, hrest, hcomment⟩
    rename_i b₀ id b₁ host b₂ ds rest sign
    have hne : b₀ ++ id ≠ [] := by simp [hidw.1]
    have hline : ¬ (b₀ ++ (id ++ (b₁ ++ (host ++ (b₂ ++ (sign.text ++ (ds ++ rest)))))) = [] ∨
        (b₀ ++ (id ++ (b₁ ++ (host ++ (b₂ ++ (sign.text ++ (ds ++ rest))))))).head? = some 35) := by
      rw [← List.append_assoc b₀ id]
      rintro (hnil | hhead)
      · exact hne (List.append_eq_nil_iff.1 hnil).1
      · obtain ⟨c, t, hcons⟩ := List.exists_cons_of_ne_nil hne
        rw [hcons] at hhead hcomment
        exact hcomment hhead
    have hnumber : number (2 ^ 16) (b₂ ++ (sign.text ++ (ds ++ rest))) =
        some (sign.apply (2 ^ 16) (value ds), rest) :=
      number_iff.2 ⟨b₂, sign, ds, rfl, hb₂, hds, hlt, hrest, rfl⟩
    simp only [if_neg hline, word_append hb₀ hidw hb₁ happart₁, word_append hb₁ hhostw hb₂ happart₂, hnumber,
      Option.bind_some, Option.map_some]

theorem parseLine_none {line : Str} : parseLine line = none ↔ ∀ c, ¬ NodeLine line c := by
  rw [Option.eq_none_iff_forall_ne_some]
  exact forall_congr' fun c => not_congr parseLine_iff

theorem readConfig_line {line : Str} (h : 10 ∉ line) (text : Str) :
    readConfig (line ++ 10 :: text) = (parseLine line).toList ++ readConfig text := by
  unfold readConfig
  rw [lines_line h, List.filterMap_cons]
  cases parseLine line <;> rfl

theorem readConfig_last {line : Str} (h : 10 ∉ line) : readConfig line = (parseLine line).toList := by
  unfold readConfig
  rw [lines_last h]
  split
  · rename_i hnil
    rw [hnil]
    rfl
  · rw [List.filterMap_cons]
    cases parseLine line <;> rfl

theorem Describes.readConfig {text : Str} {config : List ConfigLine} (h : Describes text config) :
    readConfig text = config := by
  induction h with
  | last hline hno => rw [readConfig_last hline, parseLine_none.2 hno]; rfl
  | lastNode hline hnode => rw [readConfig_last hline, parseLine_iff.2 hnode]; rfl
  | skip hline hno _ ih => rw [readConfig_line hline, parseLine_none.2 hno, ih]; rfl
  | node hline hnode _ ih => rw [readConfig_line hline, parseLine_iff.2 hnode, ih]; rfl

/-- Every text is a config file. -/
theorem describes_readConfig (text : Str) : Describes text (readConfig text) := by
  -- line by line, on the length of the text
  induction hn : text.length using Nat.strongRecOn generalizing text with
  | _ n ih =>
    rcases line_cases text with hline | ⟨line, t, hline, rfl⟩
    · rw [readConfig_last hline]
      cases hparse : parseLine text with
      | none => exact .last hline (parseLine_none.1 hparse)
      | some c => exact .lastNode hline (parseLine_iff.1 hparse)
    · have hrest : Describes t (KvStore.readConfig t) := by
        refine ih t.length ?_ t rfl
        rw [← hn, List.length_append, List.length_cons]
        omega
      rw [readConfig_line hline]
      cases hparse : parseLine line with
      | none => exact .skip hline (parseLine_none.1 hparse) hrest
      | some c => exact .node hline (parseLine_iff.1 hparse) hrest

/-- The reader loads from a text the nodes that the text describes, and those only: blanks in any
number and of any kind, comments, lines that name no node and what follows a port make no difference. -/
theorem readConfig_iff (text : Str)
    (config : List ConfigLine) : readConfig text = config ↔ Describes text config := by
  constructor
  · rintro rfl
    exact describes_readConfig text
  · exact Describes.readConfig

/-! ## Nodes with a file each -/

/-- The entry that the line makes in the table. -/
def ConfigLine.info (line : ConfigLine) : NodeInfo := ⟨line.id, line.host, line.port, .up⟩

/-- The last line with that id. -/
def lastLine (config : List ConfigLine) (id : NodeId) : Option ConfigLine := config.reverse.find? (·.id = id)

theorem lastLine_concat (config : List ConfigLine) (line : ConfigLine) (id : NodeId) :
    lastLine (config ++ [line]) id = if line.id = id then some line else lastLine config id := by
  unfold lastLine
  rw [List.reverse_append, List.reverse_singleton, List.singleton_append, List.find?_cons]
  split <;> simp_all

theorem lastLine_isSome {config : List ConfigLine} {id : NodeId} (h : id ∈ config.map (·.id)) :
    ∃ line, lastLine config id = some line := by
  obtain ⟨line, hmem, hid⟩ := List.mem_map.1 h
  rw [← Option.isSome_iff_exists, lastLine, List.find?_isSome]
  exact ⟨line, List.mem_reverse.2 hmem, by simpa using hid⟩

namespace ClusterManager

/-- A line replaces the entry of its id. -/
theorem getNode_addLine (c : ClusterManager) (line : ConfigLine) (id : NodeId) :
    (c.addLine line).getNode id = if line.id = id then some line.info else c.getNode id := by
  unfold getNode
  show ((c.nodeIndex.insert line.id c.nodes.length).lookup id).bind
    (fun i => (c.nodes ++ [line.info])[i]?) = _
  split
  · rename_i heq
    rw [heq, Finmap.lookup_insert, Option.bind_some, List.getElem?_concat_length]
  · rename_i hne
    rw [Finmap.lookup_insert_of_ne _ (Ne.symm hne)]
    cases hi : c.nodeIndex.lookup id with
    | none => rfl
    | some i =>
      obtain ⟨n, hn, -⟩ := c.indexed id i hi
      rw [Option.bind_some, Option.bind_some, List.getElem?_append_left (List.getElem?_eq_some_iff.1 hn).1]

theorem getNode_loadConfig (selfId : NodeId) (config : List ConfigLine) (id : NodeId) :
    (loadConfig selfId config).getNode id = (lastLine config id).map ConfigLine.info := by
  induction config using List.reverseRecOn with
  | nil => rfl
  | append_singleton config line ih =>
    rw [loadConfig_concat, getNode_addLine, lastLine_concat, ih]
    split <;> rfl

theorem selfNode_loadConfig (selfId : NodeId) (config : List ConfigLine) :
    (loadConfig selfId config).selfNode = ((lastLine config selfId).map ConfigLine.info).getD ⟨[], [], 0, .up⟩ := by
  induction config using List.reverseRecOn with
  | nil => rfl
  | append_singleton config line ih =>
    rw [loadConfig_concat, lastLine_concat]
    show (if line.id = (loadConfig selfId config).selfId then line.info else (loadConfig selfId config).selfNode) = _
    rw [(loadConfig_ids selfId config).1, ih]
    split <;> rfl

/-- Before any ping the replicas are those of the ring, at the addresses of the file. -/
theorem getReplicaNodes_loadConfig (selfId : NodeId) (config : List ConfigLine) (key : Key) (count : Nat) :
    (loadConfig selfId config).initializeRing.getReplicaNodes key count =
      ((ringOf config).getNodes key count).filterMap fun id => (lastLine config id).map ConfigLine.info := by
  unfold getReplicaNodes
  rw [initializeRing_ring]
  congr 1
  funext id
  show ((loadConfig selfId config).getNode id).filter _ = _
  rw [getNode_loadConfig]
  cases lastLine config id <;> rfl

end ClusterManager

theorem lastLine_id {config : List ConfigLine} {id : NodeId} {line : ConfigLine}
    (h : lastLine config id = some line) :
    line.id = id := by
  simpa using List.find?_some h

/-- Of listed ids the table forgets none. -/
theorem map_id_filterMap {config : List ConfigLine} : ∀ {ids : List NodeId}, (∀ id ∈ ids, id ∈ config.map (·.id)) →
    (ids.filterMap fun id => (lastLine config id).map ConfigLine.info).map (·.id) = ids
  | [], _ => rfl
  | id :: ids, h => by
    obtain ⟨hid, hids⟩ := List.forall_mem_cons.1 h
    obtain ⟨line, hline⟩ := lastLine_isSome hid
    rw [List.filterMap_cons, hline, Option.map_some, List.map_cons, map_id_filterMap hids]
    exact congrArg (· :: ids) (lastLine_id hline)

/-- Nodes with a file each agree on routing, right after `initialize` and before any change of a
status. If the files name the same members, whatever their layout, their order and the addresses in
them, and no two members have a virtual node at the same position, then all nodes have the same
replicas for every key, a node finds its own entry and everyone else's by the last line with the id,
and every key has one owner: the one node that calls it local, and the first replica in the eyes of
all. Where two members share a position, `addNode` gives it to the later line, so there the order
of the lines matters. -/
theorem files_agree {members : List NodeId} {text : NodeId → Str} {config : NodeId → List ConfigLine}
    (hne : members ≠ []) (htext : ∀ x ∈ members, Describes (text x) (config x))
    (hlists : ∀ x ∈ members, ∀ id, id ∈ (config x).map (·.id) ↔ id ∈ members) (hsep : Separated 150 members) :
    let node x := (ClusterManager.ofFile x (text x)).initializeRing
    (∀ x ∈ members, ∀ y ∈ members, ∀ key count,
      ((node x).getReplicaNodes key count).map (·.id) = ((node y).getReplicaNodes key count).map (·.id)) ∧
    (∀ x ∈ members, ∀ id ∈ members, ∃ line, lastLine (config x) id = some line ∧
      (node x).getNode id = some line.info ∧ (id = x → (node x).selfNode = line.info)) ∧
    ∀ key, ∃ owner ∈ members, ∀ x ∈ members, ((node x).isLocalKey key ↔ x = owner) ∧
      ∀ count, 0 < count →
        ((node x).getReplicaNodes key count).head? = (lastLine (config x) owner).map ConfigLine.info := by
  intro node
  have hnode : ∀ x ∈ members, node x = (ClusterManager.loadConfig x (config x)).initializeRing := by
    intro x hx
    show (ClusterManager.loadConfig x (readConfig (text x))).initializeRing = _
    rw [(htext x hx).readConfig]
  have hring : ∀ x ∈ members, ∀ y ∈ members, (ringOf (config x)).ring = (ringOf (config y)).ring :=
    fun x hx y hy => ringOf_ring_eq hsep (hlists x hx) (hlists y hy)
  have hids : ∀ x ∈ members, ∀ key count,
      ((node x).getReplicaNodes key count).map (·.id) = (ringOf (config x)).getNodes key count := by
    intro x hx key count
    rw [hnode x hx, ClusterManager.getReplicaNodes_loadConfig]
    exact map_id_filterMap fun id hid => mem_ringOf_nodes ((ringOf (config x)).mem_getNodes key hid)
  refine ⟨?_, ?_, ?_⟩
  · intro x hx y hy key count
    rw [hids x hx, hids y hy, ConsistentHashRing.getNodes_congr (hring x hx y hy)]
  · intro x hx id hid
    obtain ⟨line, hline⟩ := lastLine_isSome ((hlists x hx id).2 hid)
    refine ⟨line, hline, ?_, ?_⟩
    · rw [hnode x hx]
      show (ClusterManager.loadConfig x (config x)).getNode id = _
      rw [ClusterManager.getNode_loadConfig, hline]
      rfl
    · rintro rfl
      rw [hnode id hx]
      show (ClusterManager.loadConfig id (config id)).selfNode = _
      rw [ClusterManager.selfNode_loadConfig, hline]
      rfl
  · intro key
    obtain ⟨owner, ⟨howner, hlocal⟩, honly⟩ := exists_unique_local hne hlists hsep key
    refine ⟨owner, howner, ?_⟩
    intro x hx
    constructor
    · rw [hnode x hx]
      constructor
      · exact fun hxlocal => honly x ⟨hx, hxlocal⟩
      · rintro rfl
        exact hlocal
    · intro count hcount
      -- the owner is who the ring of `x` names first
      have hfirst : (ringOf (config x)).getNode key = owner := by
        rw [ConsistentHashRing.getNode_congr (hring x hx owner howner)]
        rw [ClusterManager.isLocalKey, ClusterManager.initializeRing_ring, decide_eq_true_iff] at hlocal
        exact hlocal.trans (ClusterManager.loadConfig_ids owner (config owner)).1
      have hconfig : config x ≠ [] := by
        intro hnil
        have := (hlists x hx x).2 hx
        rw [hnil] at this
        cases this
      have hhead := (ringOf (config x)).head?_getNodes key (ringOf_ne_nil hconfig) hcount
      rw [hfirst] at hhead
      obtain ⟨line, hline⟩ := lastLine_isSome ((hlists x hx owner).2 howner)
      rw [hnode x hx, ClusterManager.getReplicaNodes_loadConfig]
      obtain ⟨ids, hcons⟩ := List.head?_eq_some_iff.1 hhead
      rw [hcons, List.filterMap_cons, hline]
      rfl

/-- One file as an editor of some other system leaves it, with another order, a comment, a line that
names no node and something behind a port. -/
theorem files_agree_twoLayouts :
    let a := ascii "a"
    let b := ascii "b"
    let text (x : NodeId) : Str :=
      if x = a then ascii "# members\na host1 7000\nb host2 7001\n"
      else ascii "  b\thost2\t7001\r\n\nb only\na host1 +7000 # first"
    readConfig (text a) = [⟨a, ascii "host1", 7000⟩, ⟨b, ascii "host2", 7001⟩] ∧
      readConfig (text b) = [⟨b, ascii "host2", 7001⟩, ⟨a, ascii "host1", 7000⟩] ∧
      ∀ key, ∃ owner ∈ [a, b], ∀ x ∈ [a, b],
        ((ClusterManager.ofFile x (text x)).initializeRing.isLocalKey key ↔ x = owner) := by
  intro a b text
  have ha : readConfig (text a) = [⟨a, ascii "host1", 7000⟩, ⟨b, ascii "host2", 7001⟩] := by decide +kernel
  have hb : readConfig (text b) = [⟨b, ascii "host2", 7001⟩, ⟨a, ascii "host1", 7000⟩] := by decide +kernel
  have hlists : ∀ x ∈ [a, b], ∀ id, id ∈ (readConfig (text x)).map (·.id) ↔ id ∈ [a, b] := by
    intro x hx id
    simp only [List.mem_cons, List.not_mem_nil, or_false] at hx
    rcases hx with rfl | rfl
    · simp [ha]
    · simp [hb, or_comm]
  have hsep : Separated 150 [a, b] := by
    have hab : [a, b] = [[97], [98]] := by decide +kernel
    exact hab ▸ separated_pair
  obtain ⟨-, -, howner⟩ := @files_agree [a, b] text (fun x => readConfig (text x)) (by decide)
    (fun x _ => describes_readConfig (text x)) hlists hsep
  refine ⟨ha, hb, ?_⟩
  intro key
  obtain ⟨owner, hmem, hlocal⟩ := howner key
  exact ⟨owner, hmem, fun x hx => (hlocal x hx).1⟩

end KvStore
