-- The sync pass of the rack loop (component/rack.cpp): which of the syncs that
-- were asked for it performs. The header of the rack promises that the
-- different syncs of one cycle are all run.
import StrangeIO.CycleFrame

namespace strangeio.component

variable {ι : Type}

/-! ## What the parts of a pass do -/

/-- A part of a pass performed the syncs, and the units asked for more meanwhile. -/
structure Does (done : List sync_type) (r r' : rack ι) : Prop where
  outputs : ∀ v, (r'.units v).m_outputs = (r.units v).m_outputs
  same_class : ∀ v, (r'.units v).m_class = (r.units v).m_class
  mainlines : r'.m_raw_mainlines = r.m_raw_mainlines
  performed : r'.performed = r.performed ++ done
  requested : ∃ asks, r'.asked = r.asked ++ asks ∧ r'.m_resync_flags = gather asks r.m_resync_flags

theorem Frame.does {env : environment ι} {glob up : Bool} {r r' : rack ι}
    (h : Frame env glob up r r') : Does [] r r' := by
  obtain ⟨asks, hasked, hflags, -⟩ := h.requested
  refine ⟨h.outputs, h.same_class, h.mainlines, ?_, asks, hasked, hflags⟩
  rw [h.performed, List.append_nil]

theorem Does.refl (r : rack ι) : Does [] r r :=
  ⟨fun _ => rfl, fun _ => rfl, rfl, (List.append_nil _).symm, [], (List.append_nil _).symm, rfl⟩

theorem Does.trans {d e : List sync_type} {a b c : rack ι} (h : Does d a b) (g : Does e b c) :
    Does (d ++ e) a c where
  outputs v := (g.outputs v).trans (h.outputs v)
  same_class v := (g.same_class v).trans (h.same_class v)
  mainlines := g.mainlines.trans h.mainlines
  performed := by rw [g.performed, h.performed, List.append_assoc]
  requested := by
    obtain ⟨asks, h1, h2⟩ := h.requested
    obtain ⟨more, h3, h4⟩ := g.requested
    exact ⟨asks ++ more, by rw [h3, h1, List.append_assoc], by rw [h4, h2, gather_append]⟩

theorem Does.within {d : List sync_type} {r r' : rack ι} (h : Does d r r') (fuel : Nat) :
    r'.within fuel ↔ r.within fuel := by
  have hsucc : r'.succ = r.succ := by
    funext u
    unfold rack.succ unit.links
    rw [h.outputs]
  unfold rack.within
  rw [h.mainlines, hsucc]

/-- The log of the syncs that were performed grows by one. -/
theorem does_log (t : sync_type) (r : rack ι) :
    Does [t] r { r with performed := r.performed ++ [t] } :=
  ⟨fun _ => rfl, fun _ => rfl, rfl, rfl, [], (List.append_nil _).symm, rfl⟩

/-- The last part of a sync, where only one of three kinds is run. -/
def line_runs (flags : sync_flag) : List sync_type :=
  if flags.has sync_flags.glob_sync then [.glob_sync]
  else if flags.has sync_flags.upstream then [.upstream]
  else []

/-- The syncs that one call of `sync` performs. -/
def sync_runs (flags : sync_flag) : List sync_type :=
  (if flags.has sync_flags.downstream then [.downstream] else []) ++
    if flags.has sync_flags.sync_duration then [.sync_duration] else line_runs flags

variable [DecidableEq ι]

theorem does_sync_lines {env : environment ι} {fuel : Nat} {flags : sync_flag} {r r' : rack ι}
    (h : backend.sync_lines env fuel flags r = some r') : Does (line_runs flags) r r' := by
  unfold backend.sync_lines at h
  unfold line_runs
  split
  · rename_i hg
    rw [if_pos hg] at h
    obtain ⟨⟨p, r1⟩, h1, h2⟩ := Option.bind_eq_some_iff.mp h
    cases h2
    have hlines : Does [] r r1 :=
      walk.foldlM_relates (R := fun s t : Pass ι => Does [] s.2 t.2) (fun s => Does.refl s.2)
        (fun _ _ _ => Does.trans)
        (fun s t u _ ht => (framed_sync_line env fuel 0 u s.1 flags s.2 t ht).does) h1
    have hbuilt : Does [] r1 (rack.resync env { r1 with m_global_profile := p }) := by
      unfold rack.resync
      split
      · exact ⟨fun _ => rfl, fun _ => rfl, rfl, (List.append_nil _).symm, [],
          (List.append_nil _).symm, rfl⟩
      · split
        · exact ⟨fun _ => rfl, fun _ => rfl, rfl, (List.append_nil _).symm, [],
            (List.append_nil _).symm, rfl⟩
        · exact ⟨fun _ => rfl, fun _ => rfl, rfl, (List.append_nil _).symm, [],
            (List.append_nil _).symm, rfl⟩
    exact (hlines.trans hbuilt).trans (does_log _ _)
  · rename_i hg
    rw [if_neg hg] at h
    split
    · rename_i hu
      rw [if_pos hu] at h
      obtain ⟨r1, h1, h2⟩ := Option.bind_eq_some_iff.mp h
      cases h2
      have hlines : Does [] r r1 := by
        apply walk.foldlM_relates (R := Does []) Does.refl (fun _ _ _ => Does.trans) _ h1
        intro s t u _ ht
        obtain ⟨pass, hpass, rfl⟩ := Option.map_eq_some_iff.mp ht
        exact (framed_sync_line env fuel 0 u _ flags s pass hpass).does
      exact hlines.trans (does_log _ _)
    · rename_i hu
      rw [if_neg hu] at h
      cases h
      exact Does.refl r

theorem does_downstream {env : environment ι} {fuel : Nat} {flags : sync_flag} {r r' : rack ι}
    (h : backend.sync_downstream env fuel flags r = some r') :
    Does (if flags.has sync_flags.downstream then [.downstream] else []) r r' := by
  unfold backend.sync_downstream at h
  split
  · rename_i hd
    rw [if_pos hd] at h
    obtain ⟨s, h1, h2⟩ := Option.bind_eq_some_iff.mp h
    cases h2
    exact (frame_cycle h1).does.trans (does_log _ _)
  · rename_i hd
    rw [if_neg hd] at h
    cases h
    exact Does.refl r

/-- A sync performs what its flags say, and ends with a cycle. -/
theorem does_sync {env : environment ι} {fuel : Nat} {flags : sync_flag} {r r' : rack ι}
    (h : backend.sync env fuel flags r = some r') :
    Does (sync_runs flags) r r' ∧ r.within fuel := by
  obtain ⟨r1, h1, h2⟩ := Option.bind_eq_some_iff.mp h
  have hdown := does_downstream h1
  unfold sync_runs
  split at h2
  · rename_i hd
    rw [if_pos hd]
    obtain ⟨s, h3, h4⟩ := Option.bind_eq_some_iff.mp h2
    cases h4
    constructor
    · exact hdown.trans ((frame_cycle h3).does.trans (does_log _ _))
    · exact (hdown.within fuel).mp ((cycle_ends env).mp ⟨s, h3⟩)
  · rename_i hd
    rw [if_neg hd]
    obtain ⟨r2, h3, h4⟩ := Option.bind_eq_some_iff.mp h2
    obtain ⟨s, h5, h6⟩ := Option.bind_eq_some_iff.mp h4
    cases h6
    have hlines := hdown.trans (does_sync_lines h3)
    constructor
    · have := hlines.trans (frame_cycle h5).does
      rwa [List.append_nil] at this
    · exact (hlines.within fuel).mp ((cycle_ends env).mp ⟨s, h5⟩)

theorem sync_lines_ends (env : environment ι) {fuel : Nat} (flags : sync_flag) {r : rack ι}
    (h : r.within fuel) : ∃ r', backend.sync_lines env fuel flags r = some r' := by
  unfold backend.sync_lines
  split
  · obtain ⟨pass, hp, -⟩ := walk.foldlM_some (I := fun s : Pass ι => s.2.succ = r.succ)
      (f := fun pass u => sync_line env fuel u pass.1 flags 0 pass.2) (l := r.m_raw_mainlines)
      (fun s hs u hu => by
        obtain ⟨t, ht⟩ := ends_sync_line env (h u hu) 0 s.1 flags s.2 hs
        exact ⟨t, ht, (framed_sync_line env fuel 0 u s.1 flags s.2 t ht).succ.trans hs⟩)
      (s := (r.m_global_profile, r)) rfl
    exact ⟨_, Option.bind_eq_some_iff.mpr ⟨pass, hp, rfl⟩⟩
  · split
    · obtain ⟨r1, hr1, -⟩ := walk.foldlM_some (I := fun s : rack ι => s.succ = r.succ)
        (f := fun r u => (sync_line env fuel u r.m_global_profile flags 0 r).map (·.2))
        (l := r.m_raw_mainlines)
        (fun s hs u hu => by
          obtain ⟨t, ht⟩ := ends_sync_line env (h u hu) 0 s.m_global_profile flags s hs
          exact ⟨t.2, Option.map_eq_some_iff.mpr ⟨t, ht, rfl⟩,
            (framed_sync_line env fuel 0 u _ flags s t ht).succ.trans hs⟩)
        (s := r) rfl
      exact ⟨_, Option.bind_eq_some_iff.mpr ⟨r1, hr1, rfl⟩⟩
    · exact ⟨r, rfl⟩

/-- A sync ends exactly when every path from a mainline does. -/
theorem sync_ends (env : environment ι) {fuel : Nat} (flags : sync_flag) {r : rack ι} :
    (∃ r', backend.sync env fuel flags r = some r') ↔ r.within fuel := by
  constructor
  · rintro ⟨r', h⟩
    exact (does_sync h).2
  · intro h
    have hdown : ∃ r1, backend.sync_downstream env fuel flags r = some r1 := by
      unfold backend.sync_downstream
      split
      · obtain ⟨s, hs⟩ := (cycle_ends env).mpr h
        exact ⟨_, Option.bind_eq_some_iff.mpr ⟨s, hs, rfl⟩⟩
      · exact ⟨r, rfl⟩
    obtain ⟨r1, h1⟩ := hdown
    have hwithin := ((does_downstream h1).within fuel).mpr h
    have hrest : ∃ r', (if flags.has sync_flags.sync_duration then backend.profile_sync env fuel r1
        else (backend.sync_lines env fuel flags r1).bind fun r =>
          (backend.cycle env fuel .sync r).bind fun s => some s.2) = some r' := by
      split
      · obtain ⟨s, hs⟩ := (cycle_ends env).mpr hwithin
        exact ⟨_, Option.bind_eq_some_iff.mpr ⟨s, hs, rfl⟩⟩
      · obtain ⟨r2, h2⟩ := sync_lines_ends env flags hwithin
        obtain ⟨s, hs⟩ := (cycle_ends env).mpr (((does_sync_lines h2).within fuel).mpr hwithin)
        exact ⟨s.2, Option.bind_eq_some_iff.mpr ⟨r2, h2, Option.bind_eq_some_iff.mpr ⟨s, hs, rfl⟩⟩⟩
    obtain ⟨r', h2⟩ := hrest
    exact ⟨r', Option.bind_eq_some_iff.mpr ⟨r1, h1, h2⟩⟩

/-! ## The pass -/

/-- The flag that asks for the sync. -/
def sync_type.flag : sync_type → sync_flag
  | .upstream => sync_flags.upstream
  | .glob_sync => sync_flags.glob_sync
  | .downstream => sync_flags.downstream
  | .sync_duration => sync_flags.sync_duration

/-- The rack after a pass and the calls of `trigger_sync` since. -/
def rack.ask (r : rack ι) (asks : List sync_flag) : rack ι :=
  asks.foldl rack.trigger_sync { r with m_resync := false, m_resync_flags := 0 }

/-- A dispatch asked for a global sync on the way from one state to the other. -/
def dispatch_asked (r r' : rack ι) : Prop :=
  ∃ u flags, (u, flags) ∈ r'.asked.drop r.asked.length ∧ (r.units u).m_class = .dispatch ∧
    flags.has sync_flags.glob_sync

/-- The pass has to perform the sync: one of the calls asked for it, or it is
a global sync that a dispatch asked for in the upstream sync. -/
def wanted (asks : List sync_flag) (r r1 : rack ι) (t : sync_type) : Prop :=
  (∃ flags ∈ asks, flags.has t.flag) ∨ t = .glob_sync ∧ dispatch_asked r r1

/-- The pass ends, performs every sync that it has to, and no upstream sync
comes after a global one. -/
def performs_wanted (env : environment ι) (fuel : Nat) (asks : List sync_flag) (r : rack ι) :
    Prop :=
  ∃ r1 r', (r.ask asks).upstream_sync env fuel = some r1 ∧
    (r.ask asks).sync_pass env fuel = some r' ∧
    (∀ t, wanted asks (r.ask asks) r1 t → t ∈ r'.performed.drop (r.ask asks).performed.length) ∧
    (r'.performed.drop (r.ask asks).performed.length).Pairwise fun s t =>
      ¬ (s = .glob_sync ∧ t = .upstream)

omit [DecidableEq ι] in
theorem ask_fields (asks : List sync_flag) (r : rack ι) :
    (r.ask asks).units = r.units ∧ (r.ask asks).m_raw_mainlines = r.m_raw_mainlines ∧
      (r.ask asks).m_resync = !asks.isEmpty := by
  have hfold : ∀ (r : rack ι), (asks.foldl rack.trigger_sync r).units = r.units ∧
      (asks.foldl rack.trigger_sync r).m_raw_mainlines = r.m_raw_mainlines ∧
      (asks.foldl rack.trigger_sync r).m_resync = (r.m_resync || !asks.isEmpty) := by
    intro r
    induction asks generalizing r with
    | nil => simp
    | cons flags asks ih =>
      obtain ⟨h1, h2, h3⟩ := ih (r.trigger_sync flags)
      exact ⟨h1, h2, by rw [List.foldl_cons, h3]; simp [rack.trigger_sync]⟩
  obtain ⟨h1, h2, h3⟩ := hfold { r with m_resync := false, m_resync_flags := 0 }
  exact ⟨h1, h2, by rw [rack.ask, h3, Bool.false_or]⟩

omit [DecidableEq ι] in
/-- A flag is up exactly when one of the calls raised it. -/
theorem ask_has (asks : List sync_flag) (r : rack ι) (flag : sync_flag) :
    (r.ask asks).m_resync_flags.has flag ↔ ∃ flags ∈ asks, flags.has flag := by
  have hfold : ∀ (r : rack ι), (asks.foldl rack.trigger_sync r).m_resync_flags.has flag ↔
      r.m_resync_flags.has flag ∨ ∃ flags ∈ asks, flags.has flag := by
    intro r
    induction asks generalizing r with
    | nil => simp
    | cons flags asks ih =>
      rw [List.foldl_cons, ih, rack.trigger_sync, has_or, Bool.or_eq_true, or_assoc,
        List.exists_mem_cons_iff]
  have hzero : sync_flag.has 0 flag = false := by
    simp [sync_flag.has]
  rw [rack.ask, hfold, hzero]
  simp

omit [DecidableEq ι] in
theorem gather_has (asks : List (ι × sync_flag)) (flags flag : sync_flag) :
    (gather asks flags).has flag ↔ flags.has flag ∨ ∃ ask ∈ asks, ask.2.has flag := by
  induction asks generalizing flags with
  | nil => simp [gather]
  | cons ask asks ih =>
    change (gather asks (flags ||| ask.2)).has flag ↔ _
    rw [ih, has_or, Bool.or_eq_true, or_assoc, List.exists_mem_cons_iff]

theorem has_clear_upstream (flags : sync_flag) (t : sync_type) :
    (flags ^^^ sync_flags.upstream).has t.flag =
      if t = .upstream then !flags.has t.flag else flags.has t.flag := by
  cases t <;>
    simp only [sync_type.flag, sync_flag.has_upstream, sync_flag.has_glob_sync,
      sync_flag.has_downstream, sync_flag.has_sync_duration] <;>
    simp [sync_flags.upstream]

/-- The requests that a pass sees: the calls before it, and those of the units
in its upstream sync. -/
def seen (asks : List sync_flag) (r r1 : rack ι) : List sync_flag :=
  asks ++ (r1.asked.drop r.asked.length).map Prod.snd

/-- The upstream sync of a pass leaves the flags that the pass has seen, its own apart. -/
theorem upstream_sync_spec {env : environment ι} {fuel : Nat} {asks : List sync_flag}
    {r r1 : rack ι} (h : (r.ask asks).upstream_sync env fuel = some r1) :
    (r1.within fuel ↔ (r.ask asks).within fuel) ∧
    r1.performed = (r.ask asks).performed ++
      (if (r.ask asks).m_resync_flags.has sync_flags.upstream then [.upstream] else []) ∧
    ∀ t : sync_type, r1.m_resync_flags.has t.flag ↔
      t ≠ .upstream ∧ ∃ flags ∈ seen asks (r.ask asks) r1, flags.has t.flag := by
  have hseen : ∀ (more : List (ι × sync_flag)) t, r1.asked = (r.ask asks).asked ++ more →
      ((∃ flags ∈ seen asks (r.ask asks) r1, flags.has t) ↔
        (gather more (r.ask asks).m_resync_flags).has t) := by
    intro more t hmore
    rw [gather_has, ask_has, seen, hmore, List.drop_left]
    simp only [List.mem_append, List.mem_map, Prod.exists, exists_eq_right, or_and_right, exists_or]
    apply or_congr Iff.rfl
    constructor
    · rintro ⟨flags, ⟨u, hask⟩, hhas⟩
      exact ⟨u, flags, hask, hhas⟩
    · rintro ⟨u, flags, hask, hhas⟩
      exact ⟨flags, ⟨u, hask⟩, hhas⟩
  unfold rack.upstream_sync at h
  split at h
  · rename_i hup
    obtain ⟨r2, h1, h2⟩ := Option.bind_eq_some_iff.mp h
    obtain ⟨hdoes, -⟩ := does_sync h1
    obtain ⟨more, hmore, hflags⟩ := hdoes.requested
    cases h2
    refine ⟨hdoes.within fuel, ?_, ?_⟩
    · rw [if_pos hup]
      exact hdoes.performed
    · intro t
      rw [hseen more t.flag hmore]
      change (r2.m_resync_flags ^^^ sync_flags.upstream).has t.flag = true ↔ _
      rw [has_clear_upstream, hflags]
      split
      · rename_i ht
        subst ht
        have := (gather_has more (r.ask asks).m_resync_flags sync_type.upstream.flag).mpr (.inl hup)
        simp [this]
      · rename_i ht
        simp [ht]
  · rename_i hup
    cases h
    refine ⟨Iff.rfl, by rw [if_neg hup, List.append_nil], ?_⟩
    intro t
    rw [hseen [] t.flag (List.append_nil _).symm]
    change _ ↔ _ ∧ (r.ask asks).m_resync_flags.has t.flag = true
    constructor
    · intro ht
      refine ⟨?_, ht⟩
      rintro rfl
      exact hup ht
    · exact fun ht => ht.2

/-- The syncs of a pass: of the flags that are left, a timed sync hides the others. -/
theorem mem_sync_runs (flags : sync_flag) (t : sync_type) :
    t ∈ sync_runs flags ↔
      flags.has t.flag ∧ (t = .glob_sync → ¬ flags.has sync_flags.sync_duration) ∧
      (t = .upstream → ¬ flags.has sync_flags.sync_duration ∧
        ¬ flags.has sync_flags.glob_sync) := by
  unfold sync_runs line_runs
  cases t <;> simp only [sync_type.flag] <;>
    cases flags.has sync_flags.downstream <;> cases flags.has sync_flags.sync_duration <;>
    cases flags.has sync_flags.glob_sync <;> cases flags.has sync_flags.upstream <;> simp

theorem upstream_sync_ends (env : environment ι) {fuel : Nat} {r : rack ι} (h : r.within fuel) :
    ∃ r1, r.upstream_sync env fuel = some r1 := by
  unfold rack.upstream_sync
  split
  · obtain ⟨r1, hr1⟩ := (sync_ends env sync_flags.upstream).mpr h
    exact ⟨_, Option.bind_eq_some_iff.mpr ⟨r1, hr1, rfl⟩⟩
  · exact ⟨r, rfl⟩

omit [DecidableEq ι] in
theorem ask_within (asks : List sync_flag) (r : rack ι) (fuel : Nat) :
    (r.ask asks).within fuel ↔ r.within fuel := by
  obtain ⟨hunits, hmain, -⟩ := ask_fields asks r
  unfold rack.within rack.succ
  rw [hunits, hmain]

omit [DecidableEq ι] in
theorem ask_resync {asks : List sync_flag} {r : rack ι} (h : (r.ask asks).m_resync_flags ≠ 0) :
    (r.ask asks).m_resync = true := by
  cases asks with
  | nil => exact absurd rfl h
  | cons flags asks => exact (ask_fields (flags :: asks) r).2.2

/-- A pass with flags: its upstream sync, and the sync with what is left. -/
theorem sync_pass_some {env : environment ι} {fuel : Nat} {asks : List sync_flag} {r r' : rack ι}
    (hflags : (r.ask asks).m_resync_flags ≠ 0) :
    (r.ask asks).sync_pass env fuel = some r' ↔
      ∃ r1 r2, (r.ask asks).upstream_sync env fuel = some r1 ∧
        backend.sync env fuel r1.m_resync_flags r1 = some r2 ∧
        r' = { r2 with m_resync_flags := 0, m_resync := false } := by
  unfold rack.sync_pass
  rw [if_pos (ask_resync hflags), if_pos hflags]
  constructor
  · intro h
    obtain ⟨r1, h1, h2⟩ := Option.bind_eq_some_iff.mp h
    obtain ⟨r2, h3, h4⟩ := Option.bind_eq_some_iff.mp h2
    exact ⟨r1, r2, h1, h3, (Option.some.inj h4).symm⟩
  · rintro ⟨r1, r2, h1, h3, rfl⟩
    exact Option.bind_eq_some_iff.mpr ⟨r1, h1, Option.bind_eq_some_iff.mpr ⟨r2, h3, rfl⟩⟩

/-- What a pass with flags performs. -/
theorem sync_pass_runs {env : environment ι} {fuel : Nat} {asks : List sync_flag}
    {r r1 r2 : rack ι} (h1 : (r.ask asks).upstream_sync env fuel = some r1)
    (h2 : backend.sync env fuel r1.m_resync_flags r1 = some r2) :
    r2.performed.drop (r.ask asks).performed.length =
      (if (r.ask asks).m_resync_flags.has sync_flags.upstream then [.upstream] else []) ++
        sync_runs r1.m_resync_flags := by
  obtain ⟨-, hup, -⟩ := upstream_sync_spec h1
  rw [(does_sync h2).1.performed, hup, List.append_assoc, List.drop_left]

/-- A pass without flags performs no sync, and none was asked for. -/
theorem sync_pass_idle {env : environment ι} {fuel : Nat} {asks : List sync_flag} {r : rack ι}
    (hflags : (r.ask asks).m_resync_flags = 0) :
    (r.ask asks).upstream_sync env fuel = some (r.ask asks) ∧
    (∀ r', (r.ask asks).sync_pass env fuel = some r' →
      r'.performed = (r.ask asks).performed ∧ (asks ≠ [] → r.within fuel)) ∧
    ((asks ≠ [] → r.within fuel) → ∃ r', (r.ask asks).sync_pass env fuel = some r') ∧
    ∀ t, ¬ wanted asks (r.ask asks) (r.ask asks) t := by
  have hnone : ∀ flag, ¬ ∃ flags ∈ asks, flags.has flag := by
    intro flag
    rw [← ask_has asks r, hflags]
    simp [sync_flag.has]
  have hidle : ∀ r : rack ι, r.m_resync_flags = 0 → r.m_resync = true →
      r.sync_pass env fuel = (backend.cycle env fuel .sync r).map
        fun s => { s.2 with m_resync := false } := by
    intro r h0 h1
    unfold rack.sync_pass
    rw [if_pos h1, if_neg (not_not.mpr h0), Option.map_eq_bind]
    rfl
  refine ⟨?_, ?_, ?_, ?_⟩
  · unfold rack.upstream_sync
    rw [hflags]
    rfl
  · intro r' h
    cases asks with
    | nil =>
      cases h
      exact ⟨rfl, fun h => absurd rfl h⟩
    | cons flags asks =>
      rw [hidle _ hflags (ask_fields (flags :: asks) r).2.2] at h
      obtain ⟨s, hs, rfl⟩ := Option.map_eq_some_iff.mp h
      exact ⟨(frame_cycle hs).performed, fun _ => (ask_within _ r fuel).mp
        ((cycle_ends env).mp ⟨s, hs⟩)⟩
  · intro h
    cases asks with
    | nil => exact ⟨_, rfl⟩
    | cons flags asks =>
      rw [hidle _ hflags (ask_fields (flags :: asks) r).2.2]
      obtain ⟨s, hs⟩ := (cycle_ends env).mpr ((ask_within _ r fuel).mpr (h (List.cons_ne_nil _ _)))
      exact ⟨_, Option.map_eq_some_iff.mpr ⟨s, hs, rfl⟩⟩
  · rintro t (hasked | ⟨-, u, flags, hmem, -⟩)
    · exact hnone _ hasked
    · rw [List.drop_length] at hmem
      exact absurd hmem List.not_mem_nil

omit [DecidableEq ι] in
/-- What a pass has to perform, it has seen a request for. -/
theorem seen_of_wanted {asks : List sync_flag} {r r1 : rack ι} {t : sync_type}
    (h : wanted asks r r1 t) : ∃ flags ∈ seen asks r r1, flags.has t.flag := by
  obtain ⟨flags, hmem, hhas⟩ | ⟨rfl, u, flags, hmem, -, hhas⟩ := h
  · exact ⟨flags, List.mem_append_left _ hmem, hhas⟩
  · exact ⟨flags, List.mem_append_right _ (List.mem_map_of_mem hmem), hhas⟩

theorem sync_runs_ordered (flags : sync_flag) (b : Bool)
    (h : ¬ flags.has sync_flags.upstream) :
    ((if b then [sync_type.upstream] else []) ++ sync_runs flags).Pairwise fun s t =>
      ¬ (s = .glob_sync ∧ t = .upstream) := by
  unfold sync_runs line_runs
  rw [Bool.not_eq_true] at h
  rw [h]
  cases b <;> cases flags.has sync_flags.downstream <;>
    cases flags.has sync_flags.sync_duration <;> cases flags.has sync_flags.glob_sync <;> simp

/-- A pass with nothing scheduled keeps every promise once the paths end. -/
theorem performs_wanted_idle {env : environment ι} {fuel : Nat} {asks : List sync_flag} {r : rack ι}
    (hflags : (r.ask asks).m_resync_flags = 0) :
    performs_wanted env fuel asks r ↔ (asks ≠ [] → r.within fuel ∧
      ∀ r1, (r.ask asks).upstream_sync env fuel = some r1 →
        ¬ ((∃ flags ∈ seen asks (r.ask asks) r1, flags.has sync_flags.sync_duration) ∧
          wanted asks (r.ask asks) r1 .glob_sync)) := by
  obtain ⟨hup, hpass, hends, hnone⟩ := @sync_pass_idle ι _ env fuel asks r hflags
  constructor
  · rintro ⟨r1, r', -, h2, -⟩ hasks
    refine ⟨(hpass r' h2).2 hasks, ?_⟩
    rintro r2 h3 ⟨-, hglob⟩
    cases hup.symm.trans h3
    exact hnone _ hglob
  · intro h
    obtain ⟨r', hr'⟩ := hends fun hasks => (h hasks).1
    refine ⟨r.ask asks, r', hup, hr', fun t ht => absurd ht (hnone t), ?_⟩
    rw [(hpass r' hr').1, List.drop_length]
    exact List.Pairwise.nil

/-- A timed sync returns before the global one, so a pass that performs what
it saw has not seen both. -/
theorem performs_wanted_untimed {env : environment ι} {fuel : Nat} {asks : List sync_flag}
    {r : rack ι} (hflags : ¬ (r.ask asks).m_resync_flags = 0)
    (h : performs_wanted env fuel asks r) :
    r.within fuel ∧ ∀ r1, (r.ask asks).upstream_sync env fuel = some r1 →
      ¬ ((∃ flags ∈ seen asks (r.ask asks) r1, flags.has sync_flags.sync_duration) ∧
        wanted asks (r.ask asks) r1 .glob_sync) := by
  obtain ⟨r1, r', h1, h2, hall, -⟩ := h
  obtain ⟨r1', r2, h3, h4, rfl⟩ := (sync_pass_some hflags).mp h2
  cases h1.symm.trans h3
  obtain ⟨hwithin, -, hseen⟩ := upstream_sync_spec h1
  refine ⟨(ask_within asks r fuel).mp (hwithin.mp (does_sync h4).2), ?_⟩
  rintro r1' h1' ⟨hdur, hglob⟩
  cases h1.symm.trans h1'
  -- the global sync cannot come from the first half, which is the upstream sync
  have hdone := hall .glob_sync hglob
  rw [sync_pass_runs h1 h4, List.mem_append] at hdone
  have hrun : .glob_sync ∈ sync_runs r1.m_resync_flags := by
    rcases hdone with hdone | hdone
    · split at hdone <;> simp at hdone
    · exact hdone
  apply ((mem_sync_runs _ _).mp hrun).2.1 rfl
  exact (hseen .sync_duration).mpr ⟨by simp, hdur⟩

/-- A pass over paths that end, with no timed sync seen beside a global one,
performs what it saw. -/
theorem performs_wanted_of_untimed {env : environment ι} {fuel : Nat} {asks : List sync_flag}
    {r : rack ι} (hflags : ¬ (r.ask asks).m_resync_flags = 0) (hwithin : r.within fuel)
    (hclear : ∀ r1, (r.ask asks).upstream_sync env fuel = some r1 →
      ¬ ((∃ flags ∈ seen asks (r.ask asks) r1, flags.has sync_flags.sync_duration) ∧
        wanted asks (r.ask asks) r1 .glob_sync)) :
    performs_wanted env fuel asks r := by
  obtain ⟨r1, h1⟩ := upstream_sync_ends env ((ask_within asks r fuel).mpr hwithin)
  obtain ⟨hsame, -, hseen⟩ := upstream_sync_spec h1
  obtain ⟨r2, h2⟩ := (sync_ends env r1.m_resync_flags).mpr
    (hsame.mpr ((ask_within asks r fuel).mpr hwithin))
  refine ⟨r1, _, h1, (sync_pass_some hflags).mpr ⟨r1, r2, h1, h2, rfl⟩, ?_, ?_⟩
  · intro t ht
    rw [sync_pass_runs h1 h2, List.mem_append]
    by_cases hup : t = .upstream
    · subst hup
      left
      obtain hasked | ⟨hne, -⟩ := ht
      · rw [if_pos ((ask_has asks r sync_flags.upstream).mpr hasked)]
        exact List.mem_singleton_self _
      · cases hne
    · right
      apply (mem_sync_runs _ _).mpr
      refine ⟨(hseen t).mpr ⟨hup, seen_of_wanted ht⟩, ?_, fun h => absurd h hup⟩
      rintro rfl hdur
      exact hclear r1 h1 ⟨((hseen .sync_duration).mp hdur).2, ht⟩
  · rw [sync_pass_runs h1 h2]
    apply sync_runs_ordered
    exact fun hup => ((hseen .upstream).mp hup).1 rfl

/-- A pass performs every sync that was asked for, upstream before global,
exactly when the paths of the rack end and it has not seen a request for a
timed sync beside one for a global sync: a timed sync returns before it. -/
theorem a_pass_performs_what_was_asked (env : environment ι) (fuel : Nat) (asks : List sync_flag)
    (r : rack ι) :
    performs_wanted env fuel asks r ↔ (asks ≠ [] → r.within fuel ∧
      ∀ r1, (r.ask asks).upstream_sync env fuel = some r1 →
        ¬ ((∃ flags ∈ seen asks (r.ask asks) r1, flags.has sync_flags.sync_duration) ∧
          wanted asks (r.ask asks) r1 .glob_sync)) := by
  by_cases hflags : (r.ask asks).m_resync_flags = 0
  · exact performs_wanted_idle hflags
  · constructor
    · intro h _
      exact performs_wanted_untimed hflags h
    · intro h
      have hasks : asks ≠ [] := by
        rintro rfl
        exact hflags rfl
      obtain ⟨hwithin, hclear⟩ := h hasks
      exact performs_wanted_of_untimed hflags hwithin hclear

/-- A rack of one mainline. -/
def lone_rack : rack Unit := rack.new (fun _ => { m_class := .mainline }) [()]

/-- A timed sync and a global sync are asked for: the pass ends without the global one. -/
theorem a_timed_sync_hides_a_global_sync :
    lone_rack.within 1 ∧
    ¬ performs_wanted .quiet 1 [sync_flags.sync_duration, sync_flags.glob_sync] lone_rack := by
  constructor
  · intro u _ v hv
    cases hv
  · rintro ⟨r1, r', -, h2, hall, -⟩
    have hran : ((lone_rack.ask [sync_flags.sync_duration, sync_flags.glob_sync]).sync_pass
        .quiet 1).map (·.performed) = some [.sync_duration] := by decide
    rw [h2, Option.map_some, Option.some.injEq] at hran
    have hglob := hall .glob_sync (.inl ⟨sync_flags.glob_sync, by simp, by decide⟩)
    rw [hran] at hglob
    revert hglob
    decide

end strangeio.component
