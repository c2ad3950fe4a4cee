import FirmwareMeta.Proofs.Devicetree.Meaning
import FirmwareMeta.Proofs.Distinct

/-! Merging nodes is putting their openings one behind the other. So the tree that is built while a
document is read, item by item, is the tree that the document means. -/
namespace FirmwareMeta.Devicetree

variable {cs ds : List Node} {n m new : Node} {combine : Node → Node} {path name : String}
  {names : List String} {os more : List Occurrence} {occ : String → List Occurrence}

theorem Item.openings_of_not_mem {items : List Item}
    (absent : name ∉ items.filterMap Item.childName?) :
    items.filterMap (Item.opening? name) = [] := by
  rw [List.filterMap_eq_nil_iff]
  intro item mem
  cases item with
  | node labels own inside =>
    apply if_neg
    rintro rfl
    exact absent (List.mem_filterMap.mpr ⟨_, mem, rfl⟩)
  | _ => rfl

namespace Node

/-! Siblings -/

theorem settle_of_not_mem (fresh : new.name ∉ cs.map (·.name)) :
    settle combine new cs = cs ++ [new] := by
  induction cs with
  | nil => rfl
  | cons c rest ih =>
    rw [List.map_cons, List.mem_cons, not_or] at fresh
    rw [settle, if_neg (Ne.symm fresh.1), ih fresh.2, List.cons_append]

theorem settle_of_mem (distinct : (cs.map (·.name)).Nodup) (known : new.name ∈ cs.map (·.name)) :
    settle combine new cs = cs.map fun c => if c.name = new.name then combine c else c := by
  induction cs with
  | nil => contradiction
  | cons c rest ih =>
    rw [List.map_cons, List.nodup_cons] at distinct
    rw [settle, List.map_cons]
    by_cases same : c.name = new.name
    · -- No other sibling has the name.
      have others : rest.map (fun d => if d.name = new.name then combine d else d) = rest := by
        conv_rhs => rw [← List.map_id rest]
        apply List.map_congr_left
        intro d inside
        have differs : d.name ≠ new.name := by
          intro also
          apply distinct.1
          rw [same, ← also]
          exact List.mem_map_of_mem inside
        rw [if_neg differs, id_eq]
      rw [if_pos same, if_pos same, others]
    · have behind : new.name ∈ rest.map (·.name) := by
        rcases List.mem_cons.mp known with first | behind
        · exact absurd first.symm same
        · exact behind
      rw [if_neg same, if_neg same, ih distinct.2 behind]

/-- Siblings with a name each, every one made of the openings of its name. -/
structure Siblings (path : String) (names : List String) (occ : String → List Occurrence)
    (cs : List Node) : Prop where
  names : cs.map (·.name) = names.eraseDups
  paths : ∀ c ∈ cs, c.path = childPath path c.name
  made : ∀ c ∈ cs, c.MadeOf (occ c.name)

/-- A node is put among its siblings: its openings go behind those of its name. -/
theorem Siblings.settle (siblings : Siblings path names occ cs) (combine : Node → Node)
    (made : new.MadeOf os) (place : new.path = childPath path new.name)
    (fresh : new.name ∉ names → occ new.name = [])
    (combined : ∀ c ∈ cs, c.name = new.name → (combine c).name = c.name ∧
      (combine c).path = c.path ∧ (combine c).MadeOf (occ c.name ++ os)) :
    Siblings path (names ++ [new.name])
      (fun x => if x = new.name then occ x ++ os else occ x) (settle combine new cs) := by
  have distinct : (cs.map (·.name)).Nodup := siblings.names ▸ nodup_eraseDups names
  have known : new.name ∈ cs.map (·.name) ↔ new.name ∈ names := by
    rw [siblings.names, List.mem_eraseDups]
  by_cases mem : new.name ∈ names
  · rw [settle_of_mem distinct (known.mpr mem)]
    have kept : ∀ c ∈ cs, (if c.name = new.name then combine c else c).name = c.name := by
      intro c inside
      split
      · rename_i same
        exact (combined c inside same).1
      · rfl
    refine ⟨?_, ?_, ?_⟩
    · rw [List.map_map, List.map_congr_left (g := (·.name)) kept, siblings.names, eraseDups_concat,
        if_pos mem]
    · intro d inside
      obtain ⟨c, old, rfl⟩ := List.mem_map.mp inside
      rw [kept c old]
      split
      · rename_i same
        rw [(combined c old same).2.1]
        exact siblings.paths c old
      · exact siblings.paths c old
    · intro d inside
      obtain ⟨c, old, rfl⟩ := List.mem_map.mp inside
      rw [kept c old]
      split
      · rename_i same
        exact (combined c old same).2.2
      · exact siblings.made c old
  · rw [settle_of_not_mem (mt known.mp mem)]
    refine ⟨?_, ?_, ?_⟩
    · rw [List.map_append, siblings.names, eraseDups_concat, if_neg mem]
      rfl
    · intro c inside
      rcases List.mem_append.mp inside with old | last
      · exact siblings.paths c old
      · rw [List.mem_singleton.mp last]
        exact place
    · intro c inside
      rcases List.mem_append.mp inside with old | last
      · have differs : c.name ≠ new.name := by
          intro same
          exact mem (known.mp (same ▸ List.mem_map_of_mem old))
        simpa [differs] using siblings.made c old
      · rw [List.mem_singleton.mp last, if_pos rfl, fresh mem, List.nil_append]
        exact made

/-! Merging -/

theorem merge_eq (n m : Node) : n.merge m =
    { n with
      labels := addLabels n.labels m.labels
      properties := n.properties ++ m.properties
      children := mergeAll n.children m.children } := by
  cases m
  rw [merge]

theorem mergeAll_cons (siblings : List Node) (c : Node) (rest : List Node) :
    mergeAll siblings (c :: rest) = mergeAll (insert siblings c) rest := by
  rw [mergeAll, insert]

/-- Merging with a node adds its openings, whatever the node is merged into. -/
def Adds (c : Node) (os : List Occurrence) : Prop :=
  ∀ (n : Node) (before : List Occurrence), n.MadeOf before → n.path = c.path →
    (n.merge c).MadeOf (before ++ os)

/-- Siblings with others that come later. The induction is on the later ones, each of which is put
among all that are there by then. -/
theorem Siblings.mergeAll (siblings : Siblings path names occ cs)
    (other : String → List Occurrence) (absent : ∀ x, x ∉ names → occ x = [])
    (distinct : (ds.map (·.name)).Nodup) (paths : ∀ d ∈ ds, d.path = childPath path d.name)
    (made : ∀ d ∈ ds, d.MadeOf (other d.name)) (adds : ∀ d ∈ ds, d.Adds (other d.name)) :
    Siblings path (names ++ ds.map (·.name))
      (fun x => if x ∈ ds.map (·.name) then occ x ++ other x else occ x) (mergeAll cs ds) := by
  induction ds generalizing cs names occ with
  | nil => simpa [Node.mergeAll] using siblings
  | cons d rest ih =>
    rw [List.map_cons, List.nodup_cons] at distinct
    rw [List.forall_mem_cons] at paths made adds
    have placed : Siblings path (names ++ [d.name])
        (fun x => if x = d.name then occ x ++ other d.name else occ x) (insert cs d) := by
      apply siblings.settle (fun n => n.merge d) made.1 paths.1 (absent d.name)
      intro c inside same
      have place : c.path = d.path := by rw [siblings.paths c inside, paths.1, same]
      refine ⟨?_, ?_, adds.1 c _ (siblings.made c inside) place⟩ <;> rw [merge_eq]
    have still_absent : ∀ x, x ∉ names ++ [d.name] →
        (if x = d.name then occ x ++ other d.name else occ x) = [] := by
      intro x outside
      rw [List.mem_append, List.mem_singleton, not_or] at outside
      rw [if_neg outside.2, absent x outside.1]
    have merged := ih placed still_absent distinct.2 paths.2 made.2 adds.2
    have openings : (fun x => if x ∈ (d :: rest).map (·.name) then occ x ++ other x else occ x) =
        fun x => if x ∈ rest.map (·.name)
          then (if x = d.name then occ x ++ other d.name else occ x) ++ other x
          else if x = d.name then occ x ++ other d.name else occ x := by
      funext x
      by_cases first : x = d.name
      · subst first
        simp [distinct.1]
      · simp [first]
    rw [mergeAll_cons, openings, List.map_cons, List.append_cons]
    exact merged

theorem MadeOf.adds (made : m.MadeOf more) : m.Adds more := by
  induction made with
  | @intro first rest items m inside labels properties names paths children ih =>
    intro n before into place
    cases into with
    | @intro early late others n also_inside also_labels also_properties also_names also_paths
        also =>
      have old : Siblings n.path (others.filterMap Item.childName?)
          (fun x => others.filterMap (Item.opening? x)) n.children :=
        ⟨also_names, also_paths, also⟩
      have distinct : (m.children.map (·.name)).Nodup := names ▸ nodup_eraseDups _
      have merged := old.mergeAll (fun x => items.filterMap (Item.opening? x))
        (fun _ => Item.openings_of_not_mem) distinct (place ▸ paths) children ih
      have both : others ++ items = (early :: (late ++ first :: rest)).flatMap (·.items) := by
        rw [also_inside, inside, ← List.flatMap_append, List.cons_append]
      rw [merge_eq, List.cons_append]
      refine .intro both ?_ ?_ ?_ ?_ ?_
      · dsimp only
        rw [also_labels, labels, ← addLabels_eq, ← addLabels_eq, ← addLabels_eq,
          addLabels_addLabels, List.flatMap_append, List.flatMap_cons, addLabels_append,
          addLabels_append]
      · rw [also_properties, properties, List.filterMap_append]
      · rw [List.filterMap_append, ← eraseDups_append_eraseDups, ← names]
        exact merged.names
      · exact merged.paths
      · intro c mem
        rw [List.filterMap_append]
        by_cases again : c.name ∈ m.children.map (·.name)
        · simpa [again] using merged.made c mem
        · have none_there : items.filterMap (Item.opening? c.name) = [] := by
            apply Item.openings_of_not_mem
            rwa [names, List.mem_eraseDups] at again
          simpa [again, none_there] using merged.made c mem

theorem madeOf_single_iff {labels : List String} {items : List Item} :
    n.MadeOf [⟨labels, items⟩] ↔ n.labels = labels ∧
      n.properties = items.filterMap Item.property? ∧
      Siblings n.path (items.filterMap Item.childName?)
        (fun x => items.filterMap (Item.opening? x)) n.children := by
  constructor
  · intro made
    cases made with
    | @intro _ _ others n inside own properties names paths children =>
      obtain rfl : others = items := by simpa using inside
      exact ⟨by simpa using own, properties, names, paths, children⟩
  · rintro ⟨own, properties, names, paths, children⟩
    exact .intro (by simp) (by simpa using own) properties names paths children

theorem madeOf_bare (name path : String) (labels : List String) :
    (bare name path labels).MadeOf [⟨labels, []⟩] := by
  refine madeOf_single_iff.mpr ⟨rfl, rfl, rfl, ?_, ?_⟩ <;> simp [bare]

end Node

/-! Items -/

theorem Item.name_addTo (n : Node) (item : Item) : (item.addTo n).name = n.name := by
  cases item <;> simp [Item.addTo]

theorem Item.path_addTo (n : Node) (item : Item) : (item.addTo n).path = n.path := by
  cases item <;> simp [Item.addTo]

theorem Item.name_addAll (n : Node) (items : List Item) : (Item.addAll n items).name = n.name := by
  induction items generalizing n with
  | nil => simp [Item.addAll]
  | cons item rest ih => rw [Item.addAll, ih, Item.name_addTo]

theorem Item.path_addAll (n : Node) (items : List Item) : (Item.addAll n items).path = n.path := by
  induction items generalizing n with
  | nil => simp [Item.addAll]
  | cons item rest ih => rw [Item.addAll, ih, Item.path_addTo]

variable {labels own : List String} {items done : List Item} {child : Node}

/-- An opening of a child goes behind those of its name. -/
theorem Node.MadeOf.insert (made : n.MadeOf [⟨labels, done⟩]) (added : child.MadeOf [⟨own, items⟩])
    (place : child.path = Node.childPath n.path child.name) :
    ({ n with children := Node.insert n.children child } : Node).MadeOf
      [⟨labels, done ++ [.node own child.name items]⟩] := by
  obtain ⟨same, properties, siblings⟩ := Node.madeOf_single_iff.mp made
  have placed := siblings.settle (fun c => c.merge child) added place
    Item.openings_of_not_mem (by
      intro c inside same
      have path : c.path = child.path := by rw [siblings.paths c inside, place, same]
      refine ⟨?_, ?_, added.adds c _ (siblings.made c inside) path⟩ <;> rw [Node.merge_eq])
  refine Node.madeOf_single_iff.mpr ⟨same, ?_, ?_⟩
  · rw [List.filterMap_append, properties]
    simp [Item.property?]
  · have names : (done ++ [Item.node own child.name items]).filterMap Item.childName? =
        done.filterMap Item.childName? ++ [child.name] := by
      simp [List.filterMap_append, Item.childName?]
    have openings :
        (fun x => (done ++ [Item.node own child.name items]).filterMap (Item.opening? x)) =
        fun x => if x = child.name then done.filterMap (Item.opening? x) ++ [⟨own, items⟩]
          else done.filterMap (Item.opening? x) := by
      funext x
      rw [List.filterMap_append]
      by_cases name : x = child.name
      · simp [Item.opening?, name]
      · simp [Item.opening?, name, Ne.symm name]
    rw [names, openings]
    exact placed

mutual

theorem Item.madeOf_addTo (item : Item) : ∀ (n : Node) (labels : List String) (done : List Item),
    n.MadeOf [⟨labels, done⟩] → (item.addTo n).MadeOf [⟨labels, done ++ [item]⟩] := by
  intro n labels done made
  match item with
  | .directive =>
    rw [Item.addTo]
    obtain ⟨same, properties, siblings⟩ := Node.madeOf_single_iff.mp made
    refine Node.madeOf_single_iff.mpr ⟨same, ?_, ?_⟩
    · simpa [Item.property?, List.filterMap_cons] using properties
    · simpa [Item.childName?, Item.opening?, List.filterMap_cons] using siblings
  | .property name values =>
    rw [Item.addTo]
    obtain ⟨same, properties, siblings⟩ := Node.madeOf_single_iff.mp made
    refine Node.madeOf_single_iff.mpr ⟨same, ?_, ?_⟩
    · simpa [Item.property?, List.filterMap_cons] using properties
    · simpa [Item.childName?, Item.opening?, List.filterMap_cons] using siblings
  | .node own name items =>
    rw [Item.addTo]
    have child := Item.madeOf_addAll items _ _ _
      (Node.madeOf_bare name (Node.childPath n.path name) own)
    have child_name := Item.name_addAll (.bare name (Node.childPath n.path name) own) items
    have child_path := Item.path_addAll (.bare name (Node.childPath n.path name) own) items
    have added := made.insert child (by rw [child_path, child_name]; rfl)
    rwa [child_name] at added

theorem Item.madeOf_addAll (items : List Item) :
    ∀ (n : Node) (labels : List String) (done : List Item),
    n.MadeOf [⟨labels, done⟩] → (Item.addAll n items).MadeOf [⟨labels, done ++ items⟩] := by
  intro n labels done made
  match items with
  | [] =>
    rw [Item.addAll, List.append_nil]
    exact made
  | item :: rest =>
    have all := Item.madeOf_addAll rest _ _ _ (Item.madeOf_addTo item n labels done made)
    rw [Item.addAll]
    simpa using all

end

/-! Documents -/

theorem Part.madeOf_addTo (root : Node) (part : Part) (path : root.path = "/")
    (made : root.MadeOf os) : (part.addTo root).MadeOf (os ++ part.opening?.toList) := by
  cases part with
  | directive => simpa [Part.addTo, Part.opening?] using made
  | root labels items =>
    have opened := Item.madeOf_addAll items _ _ _ (Node.madeOf_bare "/" "/" labels)
    apply opened.adds root os made
    rw [path, Item.path_addAll]
    rfl

theorem Part.name_path_addTo (root : Node) (part : Part) :
    (part.addTo root).name = root.name ∧ (part.addTo root).path = root.path := by
  cases part with
  | directive => exact ⟨rfl, rfl⟩
  | root labels items => rw [Part.addTo, Node.merge_eq]; exact ⟨rfl, rfl⟩

theorem madeOf_treeOf (parts : List Part) : (treeOf parts).MadeOf parts := by
  have all : ∀ (root : Node) (os : List Occurrence), root.name = "/" → root.path = "/" →
      root.MadeOf os →
      (parts.foldl Part.addTo root).name = "/" ∧ (parts.foldl Part.addTo root).path = "/" ∧
        (parts.foldl Part.addTo root).MadeOf (os ++ parts.filterMap Part.opening?) := by
    induction parts with
    | nil =>
      intro root os name path made
      exact ⟨name, path, by simpa using made⟩
    | cons part rest ih =>
      intro root os name path made
      have same := Part.name_path_addTo root part
      have added := ih (part.addTo root) _ (same.1.trans name) (same.2.trans path)
        (Part.madeOf_addTo root part path made)
      refine ⟨added.1, added.2.1, ?_⟩
      cases opened : part.opening? <;> simpa [opened] using added.2.2
  have made := all Node.root [⟨[], []⟩] rfl rfl (Node.madeOf_bare "/" "/" [])
  exact ⟨made.1, made.2.1, made.2.2⟩

end FirmwareMeta.Devicetree
