-- The rack that a description is put together to (config/assembler.cpp, component/mount.cpp):
-- an assembly is a run of the calls of the mount, so what these keep holds of every rack that
-- is assembled, and the links of the description say whether its passes end.
import StrangeIO.Assemblable
import StrangeIO.Building
import StrangeIO.MidiRoutes

namespace strangeio.config

open component (mount links uint)

variable {ι : Type} [DecidableEq ι] {f : unit_factory ι} {desc : description} {l : links ι}

/-! ## What an assembly keeps -/

/-- What the calls of the assembler keep holds of what is assembled. -/
theorem assemble_keeps {P : List s_link → mount ι → Prop} (hf : f.Labelled)
    (hline : ∀ m name, P [] m → P [] (m.add_mainline name))
    (hunit : ∀ pre m u, P pre m → P pre (m.add_unit u (f.ulabel u)))
    (hlink : ∀ pre m link, P pre m → P (pre ++ [link]) (connect_link m link).2)
    {sys sys' : assembly ι} (hstart : P [] sys.mount) (h : assemble f desc sys = some sys') :
    P desc.setup.daisychains sys'.mount := by
  have hmainlines (names : List String) (sys : assembly ι) (hsys : P [] sys.mount) :
      P [] (names.foldl (fun sys mainline => { sys with mount := sys.mount.add_mainline mainline })
        sys).mount := by
    induction names generalizing sys with
    | nil => exact hsys
    | cons name names ih => exact ih _ (hline _ name hsys)
  have hlinks (pre rest : List s_link) (sys sys' : assembly ι) (hsys : P pre sys.mount)
      (h : rest.foldlM (assemble_link f desc) sys = some sys') : P (pre ++ rest) sys'.mount := by
    induction rest generalizing pre sys with
    | nil =>
      cases h
      rwa [List.append_nil]
    | cons link rest ih =>
      obtain ⟨sys1, h1, h2⟩ := walk.foldlM_cons_some.mp h
      have hnext : P (pre ++ [link]) sys1.mount := by
        obtain ⟨sys2, hcheck, h1⟩ := Option.bind_eq_some_iff.mp h1
        cases h1
        apply hlink
        obtain ⟨-, hnone⟩ | ⟨ud, sys3, hud, hsome, hmount⟩ := check_unit_cases hf sys link.to_label
        · rw [hnone] at hcheck
          cases hcheck
        · rw [hsome] at hcheck
          cases hcheck
          rw [hmount]
          unfold mount_unit
          split
          · exact hsys
          · rename_i u hload
            rw [← hf _ _ _ _ hload]
            exact hunit _ _ _ hsys
      have := ih (pre ++ [link]) sys1 hnext h2
      rwa [List.append_assoc] at this
  refine hlinks [] desc.setup.daisychains _ sys' ?_ h
  rw [devices_mount]
  exact hmainlines desc.setup.mainlines sys hstart

/-! ## An assembly as a run of calls -/

/-- The rack after some links: a run of the calls that are accepted, with each unit under its
label, and each connection that of a link. -/
structure Built (f : unit_factory ι) (l : links ι) (pre : List s_link) (m : mount ι) : Prop where
  run : ∃ cs, transition.Run (mount.calls.guarded mount.Builds) (mount.new l) cs m
  ports : m.m_links.SamePorts l
  mounted : ∀ label u, m.m_mounted label = some u → f.ulabel u = label
  fed : ∀ name u, m.Feeds name u → ∃ link ∈ pre, link.from_label = "rack" ∧ link.plug = name
  leads : ∀ u i v k, m.m_links.Leads u i (v, k) → ∃ link ∈ pre, link.from_label ≠ "rack" ∧
    f.ulabel u = link.from_label ∧ f.ulabel v = link.to_label ∧
    0 ≤ (l u).has_output link.plug ∧ i = uint ((l u).has_output link.plug)

theorem built_new (hl : l.Unlinked) : Built f l [] (mount.new l) where
  run := ⟨[], .nil _⟩
  ports u := ⟨rfl, rfl⟩
  mounted label u h := by cases h
  fed name u h := by cases h
  leads u i v k h := by
    obtain ⟨o, ho, hconnected, -⟩ := h
    rw [hl.1 u i o ho] at hconnected
    cases hconnected

/-- Two mounted units are linked where they have the plug and the jack, or nothing changes. -/
theorem connect_units_made (m : mount ι) (link : s_link) :
    m.connect_units link.from_label link.plug link.to_label link.jack = (false, m) ∨
    ∃ u v, m.m_mounted link.from_label = some u ∧ m.m_mounted link.to_label = some v ∧
      0 ≤ (m.m_links u).has_output link.plug ∧ 0 ≤ (m.m_links v).has_input link.jack ∧
      m.connect_units link.from_label link.plug link.to_label link.jack = (true, { m with
        m_links := (m.m_links.set_out u (uint ((m.m_links u).has_output link.plug))
          { to_in := some (v, uint ((m.m_links v).has_input link.jack)), connected := true }).set_in
            v
            (uint ((m.m_links v).has_input link.jack)) true }) := by
  cases hu : m.m_mounted link.from_label with
  | none => exact .inl (component.mount.connect_units_none hu)
  | some u =>
    cases hv : m.m_mounted link.to_label with
    | none =>
      left
      unfold component.mount.connect_units component.mount.get_unit
      rw [hu, hv]
    | some v =>
      by_cases hports : (m.m_links u).has_output link.plug < 0 ∨
        (m.m_links v).has_input link.jack < 0
      · left
        unfold component.mount.connect_units component.mount.get_unit
        rw [hu, hv]
        simp only
        rw [if_pos hports]
      · obtain ⟨hout, hin⟩ := not_or.mp hports
        have hout := Int.not_lt.mp hout
        have hin := Int.not_lt.mp hin
        exact .inr ⟨u, v, rfl, rfl, hout, hin, component.mount.connect_units_some hu hv hout hin⟩

section
variable {pre : List s_link} {m : mount ι}

theorem Built.perform (h : Built f l pre m) (c : mount.mount_call ι) (hc : m.Builds c) :
    ∃ cs, transition.Run (mount.calls.guarded mount.Builds) (mount.new l) cs (m.perform c) := by
  obtain ⟨cs, hcs⟩ := h.run
  exact ⟨cs ++ [c], hcs.snoc ⟨hc, rfl⟩⟩

theorem Built.add_mainline (h : Built f l pre m) (name : String) :
    Built f l pre (m.add_mainline name) := by
  obtain ⟨hmounted, hlinks⟩ := m.add_mainline_frame name
  refine ⟨?_, ?_, ?_, fun other u hfeeds => h.fed other u ?_, ?_⟩
  · exact h.perform (.add_mainline name) trivial
  · rw [hlinks]
    exact h.ports
  · rw [hmounted]
    exact h.mounted
  · unfold component.mount.Feeds component.mount.add_mainline at hfeeds
    split at hfeeds
    · exact hfeeds
    · simp only at hfeeds
      by_cases hname : other = name
      · rw [hname, Function.update_self] at hfeeds
        cases hfeeds
      · rwa [Function.update_of_ne hname] at hfeeds
  · rw [hlinks]
    exact h.leads

theorem Built.add_unit (h : Built f l pre m) (u : ι) :
    Built f l pre (m.add_unit u (f.ulabel u)) := by
  have hrun := h.perform (.add_unit u (f.ulabel u)) trivial
  have hsame : m.add_unit u (f.ulabel u) = m ∨ m.add_unit u (f.ulabel u) =
      { m with m_mounted := Function.update m.m_mounted (f.ulabel u) (some u) } := by
    unfold component.mount.add_unit
    split
    · exact .inl rfl
    · exact .inr rfl
  rcases hsame with hsame | hnew
  · rwa [hsame]
  · refine ⟨hrun, ?_, ?_, ?_, ?_⟩
    all_goals rw [hnew]
    · exact h.ports
    · intro label v hv
      simp only at hv
      by_cases hlabel : label = f.ulabel u
      · rw [hlabel, Function.update_self] at hv
        cases hv
        exact hlabel.symm
      · rw [Function.update_of_ne hlabel] at hv
        exact h.mounted label v hv
    · exact h.fed
    · exact h.leads

theorem Built.connect_link (h : Built f l pre m) (link : s_link) :
    Built f l (pre ++ [link]) (connect_link m link).2 := by
  have hpre {p : s_link → Prop} (hex : ∃ a ∈ pre, p a) : ∃ a ∈ pre ++ [link], p a := by
    obtain ⟨a, ha, hp⟩ := hex
    exact ⟨a, List.mem_append_left _ ha, hp⟩
  have hnothing : Built f l (pre ++ [link]) m :=
    ⟨h.run, h.ports, h.mounted, fun name u hu => hpre (h.fed name u hu),
      fun u i v k hlead => hpre (h.leads u i v k hlead)⟩
  unfold config.connect_link
  split
  · rename_i hrack
    obtain ⟨-, heq⟩ | ⟨line, u, -, hu, heq⟩ := m.connect_mainline_cases link.plug link.to_label
    · rwa [heq]
    · have hrun := h.perform (.connect_mainline link.plug link.to_label) (congrArg Prod.fst heq)
      refine ⟨hrun, ?_, ?_, ?_, ?_⟩
      all_goals rw [heq]
      · exact h.ports
      · exact h.mounted
      · intro name v hv
        by_cases hname : name = link.plug
        · exact ⟨link, List.mem_append_right _ List.mem_cons_self, hrack, hname.symm⟩
        · exact hpre (h.fed name v ((Function.update_of_ne hname _ _).symm.trans hv))
      · exact fun w i v k hlead => hpre (h.leads w i v k hlead)
  · rename_i hunits
    rcases connect_units_made m link with heq | ⟨u, v, hu, hv, hout, hin, heq⟩
    · rwa [heq]
    · have hrun := h.perform (.connect_units link.from_label link.plug link.to_label link.jack)
        (congrArg Prod.fst heq)
      have hsame := component.linkable.has_output_congr (h.ports u).1 link.plug
      refine ⟨hrun, ?_, ?_, ?_, ?_⟩
      all_goals rw [heq]
      · exact ((component.links.same_ports_set_in _ _ _ _).trans
          (component.links.same_ports_set_out _ _ _ _)).trans h.ports
      · exact h.mounted
      · exact fun name w hw => hpre (h.fed name w hw)
      · intro w i x k hlead
        rw [component.links.leads_connected _ (component.linkable.has_output_lt hout)] at hlead
        split at hlead
        · rename_i hself
          obtain ⟨rfl, rfl⟩ := hself
          cases hlead
          rw [hsame] at hout ⊢
          exact ⟨link, List.mem_append_right _ List.mem_cons_self, hunits, h.mounted _ _ hu,
            h.mounted _ _ hv, hout, rfl⟩
        · exact hpre (h.leads w i x k hlead)

end

/-- Every assembly is a run of the mount's calls, of those that it accepts. -/
theorem assemble_built (hf : f.Labelled) (hl : l.Unlinked) {sys sys' : assembly ι}
    (hsys : sys.mount = mount.new l) (h : assemble f desc sys = some sys') :
    Built f l desc.setup.daisychains sys'.mount := by
  refine assemble_keeps hf (fun m name hm => hm.add_mainline name) (fun pre m u hm => hm.add_unit u)
    (fun pre m link hm => hm.connect_link link) ?_ h
  rw [hsys]
  exact built_new hl

/-! ## Where the passes of an assembled rack end -/

/-- A link of the description leads from the one label to the other. -/
def Joined (desc : description) (a b : String) : Prop :=
  ∃ link ∈ desc.setup.daisychains, link.from_label ≠ "rack" ∧ link.from_label = a ∧
    link.to_label = b

theorem Built.joined {m : mount ι} (h : Built f l desc.setup.daisychains m) {u v : ι}
    (huv : walk.Edge m.m_links.succ u v) : Joined desc (f.ulabel u) (f.ulabel v) := by
  obtain ⟨i, k, hlead⟩ := component.links.mem_succ.mp huv
  obtain ⟨link, hlink, hunits, hu, hv, -⟩ := h.leads u i v k hlead
  exact ⟨link, hlink, hunits, hu.symm, hv.symm⟩

theorem Built.acyclicFrom {m : mount ι} (h : Built f l desc.setup.daisychains m) {u : ι}
    (hu : ∀ label, Relation.ReflTransGen (Joined desc) (f.ulabel u) label →
      ¬ Relation.TransGen (Joined desc) label label) : walk.AcyclicFrom m.m_links.succ u := by
  intro v huv hcycle
  refine hu (f.ulabel v) ?_ ?_
  · exact huv.lift f.ulabel fun _ _ hedge => h.joined hedge
  · exact hcycle.lift f.ulabel fun _ _ hedge => h.joined hedge

/-- On every rack that is assembled, the warm-ups, sync cycles and global syncs from a unit
end just when its links close no cycle of units below it. They close none, whatever is refused
or cannot be loaded, where the links of the description close no cycle of labels below the
unit's. -/
theorem the_passes_of_an_assembled_rack_end (hf : f.Labelled) (hl : l.Unlinked)
    {sys sys' : assembly ι} (hsys : sys.mount = mount.new l) (h : assemble f desc sys = some sys')
    (env : component.environment ι) (r : component.rack ι) (u : ι) :
    (mount.PassesEnd env (sys'.mount.on r) u ↔ walk.AcyclicFrom sys'.mount.m_links.succ u) ∧
    ((∀ label, Relation.ReflTransGen (Joined desc) (f.ulabel u) label →
      ¬ Relation.TransGen (Joined desc) label label) →
        mount.PassesEnd env (sys'.mount.on r) u) := by
  have hbuilt := assemble_built hf hl hsys h
  obtain ⟨cs, hrun⟩ := hbuilt.run
  have hfew := component.mount.few_run hl hrun
  have hends : mount.PassesEnd env (sys'.mount.on r) u ↔
      walk.AcyclicFrom sys'.mount.m_links.succ u := by
    rw [← component.mount.within_iff hfew r u]
    constructor
    · rintro ⟨-, ⟨fuel, hsync⟩, -⟩
      exact ⟨fuel, (component.cycle_line_ends env).mp hsync⟩
    · rintro ⟨k, hk⟩
      have hwarmup := (component.is_visit_warmup env).cycle_line hk (component.Cycles.refl _)
      exact ⟨⟨k, _, hwarmup.1⟩, ⟨k, (component.cycle_line_ends env).mpr hk⟩,
        fun profile line => ⟨k, (component.sync_line_glob_ends env).mpr hk⟩⟩
  exact ⟨hends, fun hlabels => hends.mpr (hbuilt.acyclicFrom hlabels)⟩

theorem duo_assembled : ∃ sys, assemble duo_factory duo duo_start = some sys :=
  (assemble_ends duo_labelled duo_start).mpr (by decide)

theorem duo_joined {a b : String} (h : Joined duo a b) : a = "phi" ∧ b = "tau" := by
  obtain ⟨link, hlink, hunits, rfl, rfl⟩ := h
  simp only [duo, List.mem_cons, List.not_mem_nil, or_false] at hlink
  rcases hlink with rfl | rfl | rfl
  · exact absurd rfl hunits
  · exact absurd rfl hunits
  · exact ⟨rfl, rfl⟩

theorem the_passes_of_a_duo_end : ∃ sys, assemble duo_factory duo duo_start = some sys ∧
    mount.PassesEnd component.environment.quiet (sys.mount.on (component.rack.new (fun _ => {}) []))
      .phi := by
  obtain ⟨sys, hsys⟩ := duo_assembled
  refine ⟨sys, hsys, (the_passes_of_an_assembled_rack_end duo_labelled duo_unlinked
    (show duo_start.mount = mount.new duo_links from rfl) hsys _ _ .phi).2 ?_⟩
  rintro label - hcycle
  obtain ⟨b, hfirst, -⟩ := Relation.TransGen.head'_iff.mp hcycle
  obtain ⟨a, -, hlast⟩ := Relation.TransGen.tail'_iff.mp hcycle
  have hboth := (duo_joined hfirst).1.symm.trans (duo_joined hlast).2
  exact absurd hboth (by decide)

/-! ## Links that are used once -/

/-- No mainline and no output of a unit is used by two of the links. -/
structure UsedOnce (f : unit_factory ι) (l : links ι) (ds : List s_link) : Prop where
  mainlines : ds.Pairwise fun a b => a.from_label = "rack" → b.from_label = "rack" → a.plug ≠ b.plug
  outputs : ds.Pairwise fun a b => a.from_label ≠ "rack" → a.from_label = b.from_label →
    ∀ u, f.ulabel u = a.from_label → 0 ≤ (l u).has_output a.plug → 0 ≤ (l u).has_output b.plug →
      uint ((l u).has_output a.plug) ≠ uint ((l u).has_output b.plug)

/-- The books of the mainlines are kept, and the flags of the links agree with their pointers. -/
structure InOrder (m : mount ι) : Prop where
  books : m.Bookkept
  flags : m.m_links.Agree
  targets : m.m_links.Targets

section
variable {pre : List s_link} {m : mount ι} {link : s_link}

omit [DecidableEq ι] in
theorem UsedOnce.init (h : UsedOnce f l (pre ++ [link])) : UsedOnce f l pre :=
  ⟨(List.pairwise_append.mp h.mainlines).1, (List.pairwise_append.mp h.outputs).1⟩

theorem InOrder.connect_link (h : InOrder m) (hb : Built f l pre m)
    (honce : UsedOnce f l (pre ++ [link])) : InOrder (connect_link m link).2 := by
  unfold config.connect_link
  split
  · rename_i hrack
    obtain ⟨-, heq⟩ | ⟨line, u, -, hu, heq⟩ := m.connect_mainline_cases link.plug link.to_label
    · rwa [heq]
    · rw [heq]
      refine ⟨component.mount.bookkept_connect_new h.books hu fun v hv => ?_, h.flags, h.targets⟩
      obtain ⟨a, ha, hfrom, hplug⟩ := hb.fed link.plug v hv
      exact (List.pairwise_append.mp honce.mainlines).2.2 a ha link List.mem_cons_self
        hfrom hrack hplug
  · rename_i hunits
    have hbooks := component.mount.bookkept_connect_units h.books link.from_label link.plug
      link.to_label link.jack
    rcases connect_units_made m link with heq | ⟨u, v, hu, hv, hout, hin, heq⟩
    · rwa [heq]
    · rw [heq] at hbooks ⊢
      have hlt := component.linkable.has_output_lt hout
      have hlt' := component.linkable.has_input_lt hin
      have hports := component.linkable.has_output_congr (hb.ports u).1 link.plug
      obtain ⟨o, ho⟩ :
          ∃ o, m.m_links.out u (uint ((m.m_links u).has_output link.plug)) = some o := by
        unfold component.links.out
        rw [List.getElem?_eq_getElem hlt]
        exact ⟨_, rfl⟩
      have hinput : ∃ b, m.m_links.inp v (uint ((m.m_links v).has_input link.jack)) = some b := by
        unfold component.links.inp
        rw [List.getElem?_eq_getElem hlt']
        exact ⟨_, rfl⟩
      -- no link before this one was made from the output
      have hfree : o.to_in = none := by
        by_contra hlinked
        obtain ⟨⟨w, k⟩, hto⟩ := Option.ne_none_iff_exists'.mp hlinked
        have hlead := hb.leads u _ w k ⟨o, ho, (h.flags.outputs u _ o ho).mpr hlinked, hto⟩
        obtain ⟨a, ha, hunits', hfrom, -, hplug, hid⟩ := hlead
        have hlabel : a.from_label = link.from_label := hfrom.symm.trans (hb.mounted _ u hu)
        rw [hports] at hout hid
        exact (List.pairwise_append.mp honce.outputs).2.2 a ha link List.mem_cons_self
          hunits' hlabel u
          hfrom hplug hout hid.symm
      have hto (e : ι × Nat) (he : some (v, uint ((m.m_links v).has_input link.jack)) = some e) :
          e = (v, uint ((m.m_links v).has_input link.jack)) := (Option.some.inj he).symm
      have hout' := component.links.set_in_out (m.m_links.set_out u
        (uint ((m.m_links u).has_output link.plug))
        { to_in := some (v, uint ((m.m_links v).has_input link.jack)), connected := true }) v
        (uint ((m.m_links v).has_input link.jack)) true
      have hinp' := component.links.set_out_set_in_inp m.m_links u v
        (uint ((m.m_links u).has_output link.plug)) (uint ((m.m_links v).has_input link.jack)) true
        { to_in := some (v, uint ((m.m_links v).has_input link.jack)), connected := true }
      refine ⟨hbooks, ?_, component.links.targets_set h.targets hout' hinp' hinput hto⟩
      refine (component.links.agree_set h.flags h.targets hout' hinp' ho hinput
        (by simp) hto).mpr ?_
      refine ⟨by simp, fun old hold => ?_⟩
      rw [hfree] at hold
      cases hold

end

/-- Where the links of a description use no mainline and no output twice, the rack that it is
assembled to has each connected mainline once in the list that a cycle walks, and the flags of
its inputs and outputs say what is linked, also where links are refused. -/
theorem an_assembled_rack_is_in_order (hf : f.Labelled) (hl : l.Unlinked) {sys sys' : assembly ι}
    (hsys : sys.mount = mount.new l) (h : assemble f desc sys = some sys')
    (honce : UsedOnce f l desc.setup.daisychains) : InOrder sys'.mount := by
  have hall : Built f l desc.setup.daisychains sys'.mount ∧
      (UsedOnce f l desc.setup.daisychains → InOrder sys'.mount) := by
    refine assemble_keeps (P := fun pre m => Built f l pre m ∧ (UsedOnce f l pre → InOrder m)) hf
      ?_ ?_ ?_ ?_ h
    · rintro m name ⟨hb, ho⟩
      obtain ⟨-, hlinks⟩ := m.add_mainline_frame name
      refine ⟨hb.add_mainline name, fun honce => ?_⟩
      obtain ⟨h1, h2, h3⟩ := ho honce
      exact ⟨component.mount.bookkept_add_mainline h1 name, by rwa [hlinks], by rwa [hlinks]⟩
    · rintro pre m u ⟨hb, ho⟩
      refine ⟨hb.add_unit u, fun honce => ?_⟩
      obtain ⟨h1, h2, h3⟩ := ho honce
      have hlinks : (m.add_unit u (f.ulabel u)).m_links = m.m_links := by
        unfold component.mount.add_unit
        split <;> rfl
      exact ⟨component.mount.bookkept_add_unit h1 u _, by rwa [hlinks], by rwa [hlinks]⟩
    · rintro pre m link ⟨hb, ho⟩
      exact ⟨hb.connect_link link, fun honce => (ho honce.init).connect_link hb honce⟩
    · rw [hsys]
      refine ⟨built_new hl, fun _ => ?_⟩
      obtain ⟨hflags, htargets⟩ := component.links.agree_unlinked hl
      exact ⟨component.mount.bookkept_new l, hflags, htargets⟩
  exact hall.2 honce

theorem a_duo_is_in_order :
    ∃ sys, assemble duo_factory duo duo_start = some sys ∧ InOrder sys.mount := by
  obtain ⟨sys, hsys⟩ := duo_assembled
  refine ⟨sys, hsys, an_assembled_rack_is_in_order duo_labelled duo_unlinked
    (show duo_start.mount = mount.new duo_links from rfl) hsys ⟨?_, ?_⟩⟩
  · simp [duo, to_phi, to_tau, phi_to_tau]
  · simp [duo, to_phi, to_tau, phi_to_tau]

end strangeio.config
