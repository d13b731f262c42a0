import RosAudit.Proofs.Model.Quiet

/-!
# Links that both sides list

A link between a node instance and a topic is listed twice, with the instance and with the topic.
`Model.TwoSided m c side` says that these lists agree for the nodes and topics of a configuration.
It is not kept by every change : a topic that comes with links may not be listed, and a link may not
be attached twice. `Model.Linked` adds what is needed to see that references stay good.

`Model.Linking` describes a model while one node instance is linked : topics that were made for
hints and have no links (`Idle`), and links that were made and not attached (`Loose`).
-/

namespace RosAudit

open List

def Topic.side (t : Topic) : LinkSide → List (Ref .link)
  | .publishers => t.publishers
  | .subscribers => t.subscribers
  | _ => []

/-- A node instance without its renamings and its links to services and parameters. -/
def NodeInstance.bare (x : NodeInstance) : NodeInstance := { x.core with remaps := Table.empty }

variable {t : Ref .topic}

namespace Model

/-- The links between the nodes and the topics of a configuration on one side : what a node lists,
its topic lists exactly once, and what a topic lists, a node does. -/
structure TwoSided (m : Model) (c : Ref .configuration) (side : LinkSide) : Prop where
  ofNode : ∀ r ∈ (m.configuration c).nodes.all, ∀ l ∈ (m.inst r).side side,
    (m.link l).node = r ∧ ∃ t ∈ (m.configuration c).topics.all,
      (m.link l).target = t.entity ∧ ((m.topic t).side side).count l = 1
  ofTopic : ∀ t ∈ (m.configuration c).topics.all, ∀ l ∈ (m.topic t).side side,
    (m.link l).target = t.entity ∧
      ∃ r ∈ (m.configuration c).nodes.all, l ∈ (m.inst r).side side

/-- The nodes and topics of a configuration are there, and their links agree. -/
structure Linked (m : Model) (c : Ref .configuration) : Prop where
  configuration : c.index < m.configurations.size
  node : ∀ r ∈ (m.configuration c).nodes.all,
    r.index < m.instances.size ∧ (m.inst r).configuration = c
  topic : ∀ t ∈ (m.configuration c).topics.all, t.index < m.topics.size
  link : ∀ {side : LinkSide}, side.isTopic = true → ∀ r ∈ (m.configuration c).nodes.all,
    ∀ l ∈ (m.inst r).side side, l.index < m.links.size
  twoSided : ∀ {side : LinkSide}, side.isTopic = true → m.TwoSided c side

/-- A topic of a configuration that is not listed and has no links. -/
structure Idle (m : Model) (c : Ref .configuration) (t : Ref .topic) : Prop where
  index : t.index < m.topics.size
  configuration : (m.topic t).configuration = c
  unlisted : t ∉ (m.configuration c).topics.all
  unlinked : ∀ side, (m.topic t).side side = []

/-- A link from a node to a topic of a configuration, listed with no node. -/
structure Loose (m : Model) (c : Ref .configuration) (r : Ref .inst) (l : Ref .link) : Prop where
  index : l.index < m.links.size
  node : (m.link l).node = r
  target : ∃ t ∈ (m.configuration c).topics.all, (m.link l).target = t.entity
  free : ∀ {side : LinkSide}, side.isTopic = true → ∀ r ∈ (m.configuration c).nodes.all,
    l ∉ (m.inst r).side side

/-- The node `r` is being linked. The topics `hints` are idle, the topics `listed` are listed, and
the links `ls` are still loose. -/
structure Linking (m : Model) (c : Ref .configuration) (r : Ref .inst)
    (hints listed : List (Ref .topic)) (ls : List (Ref .link)) : Prop where
  linked : m.Linked c
  node : r ∈ (m.configuration c).nodes.all
  idle : ∀ t ∈ hints, m.Idle c t
  listed : ∀ t ∈ listed, t ∈ (m.configuration c).topics.all
  nodup : ls.Nodup
  loose : ∀ l ∈ ls, m.Loose c r l

theorem linked_of_empty {m : Model} {c : Ref .configuration}
    (hc : c.index < m.configurations.size) (hn : (m.configuration c).nodes.all = [])
    (ht : (m.configuration c).topics.all = []) : m.Linked c := by
  refine ⟨hc, ?_, ?_, fun _ => ?_, fun _ => ⟨?_, ?_⟩⟩
  · simp [hn]
  · simp [ht]
  · simp [hn]
  · simp [hn]
  · simp [ht]

/-! ## Quiet changes -/

/-- The change is quiet, but may give names to node instances. -/
abbrev Hushed : Model → Model → Prop :=
  Still NodeInstance.bare Model.topics Topic.core Configuration.topics

theorem Quiet.hushed {m m'} (h : Quiet m m') : Hushed m m' :=
  { h with part := h.view_inst NodeInstance.bare fun _ => rfl }

section Quiet

variable {m m' : Model} (h : Hushed m m') {side : LinkSide}
include h

theorem Hushed.configuration_inst (r : Ref .inst) :
    (m'.inst r).configuration = (m.inst r).configuration :=
  h.view_inst NodeInstance.configuration (fun _ => rfl) r

theorem Hushed.side_inst (r : Ref .inst) (hside : side.isTopic = true) :
    (m'.inst r).side side = (m.inst r).side side := by
  refine h.view_inst (·.side side) (fun x => ?_) r
  cases side with
  | publishers | subscribers => rfl
  | _ => cases hside

theorem Hushed.configuration_topic (ht : t.index < m.topics.size) :
    (m'.topic t).configuration = (m.topic t).configuration :=
  h.view Topic.configuration (fun _ => rfl) ht

theorem Hushed.side_topic (ht : t.index < m.topics.size) (side : LinkSide) :
    (m'.topic t).side side = (m.topic t).side side := by
  refine h.view (·.side side) (fun x => ?_) ht
  cases side <;> rfl

variable {c : Ref .configuration}

theorem TwoSided.of_hushed (hside : side.isTopic = true) (hm : m.Linked c) :
    m'.TwoSided c side where
  ofNode r hr l hl := by
    rw [h.nodes] at hr
    rw [h.side_inst r hside] at hl
    obtain ⟨hnode, t, ht, htarget, hcount⟩ := (hm.twoSided hside).ofNode r hr l hl
    rw [h.link l (hm.link hside r hr l hl)]
    refine ⟨hnode, t, by rwa [h.list], htarget, ?_⟩
    rwa [h.side_topic (hm.topic t ht)]
  ofTopic t ht l hl := by
    rw [h.list] at ht
    rw [h.side_topic (hm.topic t ht)] at hl
    obtain ⟨htarget, r, hr, hlr⟩ := (hm.twoSided hside).ofTopic t ht l hl
    rw [h.link l (hm.link hside r hr l hlr)]
    exact ⟨htarget, r, by rwa [h.nodes], by rwa [h.side_inst r hside]⟩

theorem Linked.of_hushed (hm : m.Linked c) : m'.Linked c where
  configuration := by
    rw [h.size_configurations]
    exact hm.configuration
  node r hr := by
    rw [h.nodes] at hr
    rw [h.size_instances, h.configuration_inst]
    exact hm.node r hr
  topic t ht := by
    rw [h.list] at ht
    exact Nat.lt_of_lt_of_le (hm.topic t ht) h.size_store
  link hside r hr l hl := by
    rw [h.nodes] at hr
    rw [h.side_inst r hside] at hl
    exact Nat.lt_of_lt_of_le (hm.link hside r hr l hl) h.size_links
  twoSided hside := .of_hushed h hside hm

theorem Idle.of_hushed (ht : m.Idle c t) : m'.Idle c t where
  index := Nat.lt_of_lt_of_le ht.index h.size_store
  configuration := (h.configuration_topic ht.index).trans ht.configuration
  unlisted := by
    rw [h.list]
    exact ht.unlisted
  unlinked side := (h.side_topic ht.index side).trans (ht.unlinked side)

theorem Loose.of_hushed {r l} (hl : m.Loose c r l) : m'.Loose c r l where
  index := Nat.lt_of_lt_of_le hl.index h.size_links
  node := by
    rw [h.link l hl.index]
    exact hl.node
  target := by
    rw [h.list, h.link l hl.index]
    exact hl.target
  free hside r hr := by
    rw [h.nodes] at hr
    rw [h.side_inst r hside]
    exact hl.free hside r hr

theorem Linking.of_hushed {r hints listed ls} (hm : m.Linking c r hints listed ls) :
    m'.Linking c r hints listed ls where
  linked := .of_hushed h hm.linked
  node := by
    rw [h.nodes]
    exact hm.node
  idle t ht := .of_hushed h (hm.idle t ht)
  listed t ht := by
    rw [h.list]
    exact hm.listed t ht
  nodup := hm.nodup
  loose l hl := .of_hushed h (hm.loose l hl)

end Quiet

variable {m m' : Model} {c : Ref .configuration}

theorem Linked.of_quiet (hm : m.Linked c) (h : Quiet m m') : m'.Linked c :=
  hm.of_hushed h.hushed

theorem Linking.of_quiet {r hints listed ls} (hm : m.Linking c r hints listed ls) (h : Quiet m m') :
    m'.Linking c r hints listed ls :=
  hm.of_hushed h.hushed

/-! ## New topics -/

theorem idle_addTopic (h : m.Linked c) {x} (hc : x.configuration = c)
    (hx : ∀ side, x.side side = []) : (m.addTopic x).1.Idle c ⟨m.topics.size⟩ := by
  have hnew : (m.addTopic x).1.topic ⟨m.topics.size⟩ = x := getD_push_size _ _ _
  refine ⟨by simp [addTopic], by rw [hnew, hc], fun ht => ?_, fun side => by rw [hnew, hx]⟩
  exact Nat.lt_irrefl _ (h.topic _ ht)

theorem nodes_listTopic (m : Model) (t c) :
    ((m.listTopic t).1.configuration c).nodes = (m.configuration c).nodes := by
  refine view_getD_modify _ _ Configuration.nodes (fun k => ?_) _ _
  rfl

theorem topics_listTopic (hc : c.index < m.configurations.size)
    (ht : (m.topic t).configuration = c) :
    ((m.listTopic t).1.configuration c).topics.all = (m.configuration c).topics.all ++ [t] := by
  subst ht
  exact congrArg (fun k : Configuration => k.topics.all) (getD_modify_self _ _ _ hc)

theorem Linked.listTopic (h : m.Linked c) (ht : m.Idle c t) : (m.listTopic t).1.Linked c := by
  have hnodes := m.nodes_listTopic t c
  have htopics := topics_listTopic h.configuration ht.configuration
  have hold : ∀ t' ∈ (m.configuration c).topics.all,
      t' ∈ ((m.listTopic t).1.configuration c).topics.all := by
    intro t' ht'
    rw [htopics]
    exact mem_append_left _ ht'
  have hnew : ∀ t' ∈ ((m.listTopic t).1.configuration c).topics.all,
      t' ∈ (m.configuration c).topics.all ∨ t' = t := by
    intro t' ht'
    rwa [htopics, mem_append, mem_singleton] at ht'
  refine ⟨?_, fun r hr => ?_, fun t' ht' => ?_, fun hs r hr => ?_, fun hs => ⟨?_, ?_⟩⟩
  · exact Nat.lt_of_lt_of_eq h.configuration (Array.size_modify ..).symm
  · rw [hnodes] at hr
    exact h.node r hr
  · rcases hnew t' ht' with ht' | rfl
    · exact h.topic t' ht'
    · exact ht.index
  · rw [hnodes] at hr
    exact h.link hs r hr
  · intro r hr l hl
    rw [hnodes] at hr
    obtain ⟨hnode, t', ht', hlink⟩ := (h.twoSided hs).ofNode r hr l hl
    exact ⟨hnode, t', hold t' ht', hlink⟩
  · intro t' ht' l hl
    rw [hnodes]
    rcases hnew t' ht' with ht' | rfl
    · exact (h.twoSided hs).ofTopic t' ht' l hl
    · have hnone : l ∈ (m.topic t').side _ := hl
      rw [ht.unlinked] at hnone
      cases hnone

/-! ## Attaching a link -/

section Stores

variable (m : Model) (l : Ref .link) (side : LinkSide)

@[simp] theorem configuration_attach (c) :
    (m.attach l side).configuration c = m.configuration c := by
  cases side <;> rfl

@[simp] theorem link_attach (l' : Ref .link) : (m.attach l side).link l' = m.link l' := by
  cases side <;> rfl

@[simp] theorem size_configurations_attach :
    (m.attach l side).configurations.size = m.configurations.size := by
  cases side <;> rfl

@[simp] theorem size_links_attach : (m.attach l side).links.size = m.links.size := by
  cases side <;> rfl

@[simp] theorem size_instances_attach : (m.attach l side).instances.size = m.instances.size := by
  rw [instances_attach, Array.size_modify]

@[simp] theorem size_topics_attach : (m.attach l side).topics.size = m.topics.size := by
  cases side with
  | publishers | subscribers => exact Array.size_modify ..
  | _ => rfl

@[simp] theorem configuration_inst_attach (r : Ref .inst) :
    ((m.attach l side).inst r).configuration = (m.inst r).configuration := by
  rw [inst, instances_attach]
  refine view_getD_modify _ _ NodeInstance.configuration (fun x => ?_) _ _
  cases side <;> rfl

@[simp] theorem configuration_topic_attach (t) :
    ((m.attach l side).topic t).configuration = (m.topic t).configuration := by
  cases side with
  | publishers | subscribers =>
    exact view_getD_modify _ _ Topic.configuration (fun x => by rfl) _ _
  | _ => rfl

end Stores

section Attach

variable {l : Ref .link} {side : LinkSide}

theorem side_inst_attach (hl : (m.link l).node.index < m.instances.size) (r : Ref .inst)
    (side' : LinkSide) : ((m.attach l side).inst r).side side' =
      (m.inst r).side side' ++ if r = (m.link l).node ∧ side' = side then [l] else [] := by
  rw [inst, instances_attach]
  refine side_getD_modify _ _ NodeInstance.side (fun x side' => ?_) hl r side'
  cases side <;> cases side' <;> simp [NodeInstance.side, NodeInstance.addTo]

theorem side_topic_attach (hside : side.isTopic = true) (hl : (m.link l).target = t.entity)
    (ht : t.index < m.topics.size) (t' side') :
    ((m.attach l side).topic t').side side' =
      (m.topic t').side side' ++ if t' = t ∧ side' = side then [l] else [] := by
  have hindex : (m.link l).target.index = t.index := congrArg Entity.index hl
  cases side with
  | publishers | subscribers =>
    simp only [attach, updateTopic, topic, updateInstance, hindex]
    refine side_getD_modify _ _ Topic.side (fun x side' => ?_) ht t' side'
    cases side' <;> simp [Topic.side]
  | _ => cases hside

variable {r : Ref .inst}

theorem Loose.not_mem_topic (hl : m.Loose c r l) (h : m.Linked c) (hside : side.isTopic = true)
    (ht : t ∈ (m.configuration c).topics.all) : l ∉ (m.topic t).side side := by
  intro hmem
  obtain ⟨-, r', hr', hmem⟩ := (h.twoSided hside).ofTopic t ht l hmem
  exact hl.free hside r' hr' hmem

section

variable (h : m.Linked c) (hside : side.isTopic = true) (hr : r ∈ (m.configuration c).nodes.all)
  (hl : m.Loose c r l)
include h hside hr hl

theorem TwoSided.attach {side'} (hside' : side'.isTopic = true) :
    (m.attach l side).TwoSided c side' := by
  obtain ⟨t, ht, htarget⟩ := hl.target
  have htopic := side_topic_attach hside htarget (h.topic t ht)
  have hinst := @side_inst_attach m l side (hl.node ▸ (h.node r hr).1)
  rw [hl.node] at hinst
  constructor
  · intro r' hr' l' hl'
    rw [configuration_attach] at hr' ⊢
    rw [hinst, mem_append, mem_ite_nil_right, mem_singleton] at hl'
    rw [link_attach]
    rcases hl' with hl' | ⟨⟨rfl, rfl⟩, rfl⟩
    · -- the new link is in no list, so what is counted in the lists stays as it is
      obtain ⟨hnode, t', ht', htarget', hcount⟩ := (h.twoSided hside').ofNode r' hr' l' hl'
      have hne : l ≠ l' := fun heq => hl.free hside' r' hr' (heq ▸ hl')
      refine ⟨hnode, t', ht', htarget', ?_⟩
      rw [htopic, count_append, hcount]
      split
      · rw [count_singleton, if_neg (by simpa using hne)]
      · rw [count_nil]
    · refine ⟨hl.node, t, ht, htarget, ?_⟩
      have hnew : ((m.topic t).side side').count l' = 0 :=
        count_eq_zero_of_not_mem (hl.not_mem_topic h hside' ht)
      rw [htopic, if_pos ⟨rfl, rfl⟩, count_append, hnew, count_singleton_self]
  · intro t' ht' l' hl'
    rw [configuration_attach] at ht' ⊢
    rw [htopic, mem_append, mem_ite_nil_right, mem_singleton] at hl'
    rw [link_attach]
    rcases hl' with hl' | ⟨⟨rfl, rfl⟩, rfl⟩
    · obtain ⟨htarget', r', hr', hmem⟩ := (h.twoSided hside').ofTopic t' ht' l' hl'
      refine ⟨htarget', r', hr', ?_⟩
      rw [hinst]
      exact mem_append_left _ hmem
    · refine ⟨htarget, r, hr, ?_⟩
      rw [hinst, if_pos ⟨rfl, rfl⟩]
      exact mem_append_right _ (mem_singleton_self l')

theorem Linked.attach : (m.attach l side).Linked c where
  configuration := by
    rw [size_configurations_attach]
    exact h.configuration
  node r' hr' := by
    rw [configuration_attach] at hr'
    rw [size_instances_attach, configuration_inst_attach]
    exact h.node r' hr'
  topic t ht := by
    rw [configuration_attach] at ht
    rw [size_topics_attach]
    exact h.topic t ht
  link hside' r' hr' l' hl' := by
    rw [configuration_attach] at hr'
    rw [side_inst_attach (hl.node ▸ (h.node r hr).1), mem_append, mem_ite_nil_right,
      mem_singleton] at hl'
    rw [size_links_attach]
    rcases hl' with hl' | ⟨-, rfl⟩
    · exact h.link hside' r' hr' l' hl'
    · exact hl.index
  twoSided hside' := .attach h hside hr hl hside'

end

end Attach

/-! ## While a node is linked -/

namespace Linking

variable {r : Ref .inst} {hints listed : List (Ref .topic)} {ls : List (Ref .link)}

section

variable (h : m.Linking c r hints listed ls)
include h

theorem addHint (ht : m.Idle c t) : m.Linking c r (hints ++ [t]) listed ls := by
  refine ⟨h.linked, h.node, fun t' ht' => ?_, h.listed, h.nodup, h.loose⟩
  rcases mem_append.mp ht' with ht' | ht'
  · exact h.idle t' ht'
  · rwa [mem_singleton.mp ht']

theorem addLink {x} (hnode : x.node = r) (ht : t ∈ listed) (htarget : x.target = t.entity) :
    (m.addLink x).1.Linking c r hints listed (ls ++ [⟨m.links.size⟩]) := by
  have hold := h.of_quiet (m.quiet_addLink x)
  have hnew : (m.addLink x).1.link ⟨m.links.size⟩ = x := getD_push_size _ _ _
  have hloose : (m.addLink x).1.Loose c r ⟨m.links.size⟩ := by
    refine ⟨by simp [Model.addLink], by rw [hnew, hnode], ?_, fun hside r' hr' hmem => ?_⟩
    · exact ⟨t, hold.listed t ht, by rw [hnew, htarget]⟩
    · exact Nat.lt_irrefl _ (h.linked.link hside r' hr' _ hmem)
  refine ⟨hold.linked, hold.node, hold.idle, hold.listed, ?_, fun l hl => ?_⟩
  · refine nodup_append.mpr ⟨h.nodup, pairwise_singleton _ _, fun l hl l' hl' => ?_⟩
    rintro rfl
    rw [mem_singleton.mp hl'] at hl
    exact Nat.lt_irrefl _ (h.loose _ hl).index
  · rcases mem_append.mp hl with hl | hl
    · exact hold.loose l hl
    · rwa [mem_singleton.mp hl]

theorem listTopic (ht : m.Idle c t) (hnew : t ∉ hints) :
    (m.listTopic t).1.Linking c r hints (t :: listed) ls := by
  have hnodes := m.nodes_listTopic t c
  have htopics := topics_listTopic h.linked.configuration ht.configuration
  refine ⟨h.linked.listTopic ht, ?_, fun t' ht' => ?_, fun t' ht' => ?_, h.nodup, fun l hl => ?_⟩
  · rw [hnodes]
    exact h.node
  · obtain ⟨hindex, hconfiguration, hunlisted, hunlinked⟩ := h.idle t' ht'
    refine ⟨hindex, hconfiguration, ?_, hunlinked⟩
    rw [htopics, mem_append, mem_singleton]
    rintro (hmem | rfl)
    · exact hunlisted hmem
    · exact hnew ht'
  · rw [htopics, mem_append, mem_singleton]
    rcases mem_cons.mp ht' with rfl | ht'
    · exact .inr rfl
    · exact .inl (h.listed t' ht')
  · obtain ⟨hindex, hnode, ⟨t', ht', htarget⟩, hfree⟩ := h.loose l hl
    refine ⟨hindex, hnode, ⟨t', ?_, htarget⟩, fun hside r' hr' => ?_⟩
    · rw [htopics]
      exact mem_append_left _ ht'
    · rw [hnodes] at hr'
      exact hfree hside r' hr'

end

theorem attach {l} (h : m.Linking c r hints listed (l :: ls)) (hside : side.isTopic = true) :
    (m.attach l side).Linking c r hints listed ls := by
  have hl := h.loose l mem_cons_self
  obtain ⟨hnew, hnodup⟩ := nodup_cons.mp h.nodup
  obtain ⟨t, ht, htarget⟩ := hl.target
  refine ⟨h.linked.attach hside h.node hl, ?_, fun t' ht' => ?_, ?_, hnodup, fun l' hl' => ?_⟩
  · rw [configuration_attach]
    exact h.node
  · obtain ⟨hindex, hconfiguration, hunlisted, hunlinked⟩ := h.idle t' ht'
    refine ⟨by rwa [size_topics_attach], by rwa [configuration_topic_attach],
      by rwa [configuration_attach], fun side' => ?_⟩
    have hne : ¬ (t' = t ∧ side' = side) := fun heq => hunlisted (heq.1 ▸ ht)
    rw [side_topic_attach hside htarget (h.linked.topic t ht), if_neg hne, hunlinked]
    rfl
  · rw [configuration_attach]
    exact h.listed
  · obtain ⟨hindex, hnode, htarget', hfree⟩ := h.loose l' (mem_cons_of_mem l hl')
    refine ⟨by rwa [size_links_attach], by rwa [link_attach], ?_, fun hside' r' hr' hmem => ?_⟩
    · rwa [configuration_attach, link_attach]
    · rw [configuration_attach] at hr'
      rw [side_inst_attach (hl.node ▸ (h.linked.node r h.node).1), mem_append,
        mem_ite_nil_right, mem_singleton] at hmem
      rcases hmem with hmem | ⟨-, rfl⟩
      · exact hfree hside' r' hr' hmem
      · exact hnew hl'

end Linking

end Model

end RosAudit
