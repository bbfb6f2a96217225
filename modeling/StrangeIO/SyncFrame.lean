-- What the passes of a sync leave alone, and how deep they go. A pass never
-- changes a link. Only a global sync changes what the units have recorded, and
-- only an upstream sync changes what they have registered.
import StrangeIO.Backend
import StrangeIO.Walk

namespace strangeio.component

variable {ι : Type}

/-- The links of a unit that a pass goes down: the connected ones. -/
def unit.links (x : unit ι) : List (ι × Nat) :=
  x.m_outputs.filterMap fun out => if out.connected then out.to_in else none

def rack.succ (r : rack ι) (u : ι) : List ι := (r.units u).links.map Prod.fst

/-- The flags after the units have asked for the syncs. -/
def gather (asks : List (ι × sync_flag)) (flags : sync_flag) : sync_flag :=
  asks.foldl (fun flags ask => flags ||| ask.2) flags

theorem gather_append (asks more : List (ι × sync_flag)) (flags : sync_flag) :
    gather (asks ++ more) flags = gather more (gather asks flags) := List.foldl_append

/-- A unit asks for a sync when it resyncs. -/
def environment.may_ask (env : environment ι) (u : ι) (flags : sync_flag) : Prop :=
  ∃ given r, .trigger_sync flags ∈ env.resync u given r

/-- A request in a sync comes from a unit that resyncs, or from a dispatch in
an upstream sync. -/
def allowed (env : environment ι) (up : Bool) (r : rack ι) (ask : ι × sync_flag) : Prop :=
  env.may_ask ask.1 ask.2 ∨
    up = true ∧ (r.units ask.1).m_class = .dispatch ∧ ask.2 = sync_flags.glob_sync

/-- What a part of a sync with the flags leaves alone. `glob` and `up` say
whether it may change what the units recorded and registered. -/
structure Frame (env : environment ι) (glob up : Bool) (r r' : rack ι) : Prop where
  outputs : ∀ v, (r'.units v).m_outputs = (r.units v).m_outputs
  same_class : ∀ v, (r'.units v).m_class = (r.units v).m_class
  mounted : ∀ v, (r'.units v).m_rack = (r.units v).m_rack
  mainlines : r'.m_raw_mainlines = r.m_raw_mainlines
  rack_profile : r'.m_global_profile = r.m_global_profile
  same_cache : r'.m_cache = r.m_cache
  recorded : glob = false → ∀ v, (r'.units v).m_global_profile = (r.units v).m_global_profile
  registered : up = false → ∀ v, (r'.units v).m_unit_profile = (r.units v).m_unit_profile
  inputs : up = false → ∀ v, (r'.units v).m_input_state = (r.units v).m_input_state
  performed : r'.performed = r.performed
  requested : ∃ asks, r'.asked = r.asked ++ asks ∧
    r'.m_resync_flags = gather asks r.m_resync_flags ∧ (∀ ask ∈ asks, allowed env up r ask) ∧
    ∀ v, (r.units v).m_rack = true → (r'.units v).m_upstream = true →
      (r.units v).m_upstream = true ∨ ∃ flags, (v, flags) ∈ asks ∧ flags.has sync_flags.upstream

/-- A change that the units do not see. -/
theorem frame_of_units {env : environment ι} (glob up : Bool) {r r' : rack ι}
    (hunits : r'.units = r.units) (hmain : r'.m_raw_mainlines = r.m_raw_mainlines)
    (hprofile : r'.m_global_profile = r.m_global_profile) (hcache : r'.m_cache = r.m_cache)
    (hperf : r'.performed = r.performed)
    (hasked : r'.asked = r.asked) (hflags : r'.m_resync_flags = r.m_resync_flags) :
    Frame env glob up r r' := by
  refine ⟨?_, ?_, ?_, hmain, hprofile, hcache, ?_, ?_, ?_, hperf, [], ?_, hflags, ?_, ?_⟩
  · exact fun v => by rw [hunits]
  · exact fun v => by rw [hunits]
  · exact fun v => by rw [hunits]
  · exact fun _ v => by rw [hunits]
  · exact fun _ v => by rw [hunits]
  · exact fun _ v => by rw [hunits]
  · rw [hasked, List.append_nil]
  · exact fun ask h => absurd h List.not_mem_nil
  · exact fun v _ h => .inl (hunits ▸ h)

theorem Frame.refl (env : environment ι) (glob up : Bool) (r : rack ι) : Frame env glob up r r :=
  frame_of_units glob up rfl rfl rfl rfl rfl rfl rfl

theorem Frame.trans {env : environment ι} {glob up : Bool} {a b c : rack ι}
    (h : Frame env glob up a b) (g : Frame env glob up b c) : Frame env glob up a c where
  outputs v := (g.outputs v).trans (h.outputs v)
  same_class v := (g.same_class v).trans (h.same_class v)
  mounted v := (g.mounted v).trans (h.mounted v)
  mainlines := g.mainlines.trans h.mainlines
  rack_profile := g.rack_profile.trans h.rack_profile
  same_cache := g.same_cache.trans h.same_cache
  recorded hg v := (g.recorded hg v).trans (h.recorded hg v)
  registered hu v := (g.registered hu v).trans (h.registered hu v)
  inputs hu v := (g.inputs hu v).trans (h.inputs hu v)
  performed := g.performed.trans h.performed
  requested := by
    obtain ⟨asks, h1, h2, h3, h4⟩ := h.requested
    obtain ⟨more, h5, h6, h7, h8⟩ := g.requested
    refine ⟨asks ++ more, ?_, ?_, ?_, ?_⟩
    · rw [h5, h1, List.append_assoc]
    · rw [h6, h2, gather_append]
    · intro ask hask
      rcases List.mem_append.mp hask with hask | hask
      · exact h3 ask hask
      · have := h7 ask hask
        rwa [allowed, h.same_class ask.1] at this
    · intro v hv hup
      rcases h8 v ((h.mounted v).trans hv) hup with hup | ⟨flags, hmem, hflags⟩
      · rcases h4 v hv hup with hup | ⟨flags, hmem, hflags⟩
        · exact .inl hup
        · exact .inr ⟨flags, List.mem_append_left _ hmem, hflags⟩
      · exact .inr ⟨flags, List.mem_append_right _ hmem, hflags⟩

theorem Frame.weaken {env : environment ι} {r r' : rack ι} (h : Frame env false false r r')
    (glob up : Bool) : Frame env glob up r r' where
  outputs := h.outputs
  same_class := h.same_class
  mounted := h.mounted
  mainlines := h.mainlines
  rack_profile := h.rack_profile
  same_cache := h.same_cache
  recorded _ := h.recorded rfl
  registered _ := h.registered rfl
  inputs _ := h.inputs rfl
  performed := h.performed
  requested := by
    obtain ⟨asks, h1, h2, h3, h4⟩ := h.requested
    refine ⟨asks, h1, h2, fun ask hask => ?_, h4⟩
    rcases h3 ask hask with hask | ⟨hup, -⟩
    · exact .inl hask
    · cases hup

theorem Frame.succ {env : environment ι} {glob up : Bool} {r r' : rack ι}
    (h : Frame env glob up r r') : r'.succ = r.succ := by
  funext u
  unfold rack.succ unit.links
  rw [h.outputs]

theorem Frame.links {env : environment ι} {glob up : Bool} {r r' : rack ι}
    (h : Frame env glob up r r') (u : ι) : (r'.units u).links = (r.units u).links := by
  unfold unit.links
  rw [h.outputs]

theorem frame_trigger_cycle (env : environment ι) (r : rack ι) :
    Frame env false false r (unit.trigger_cycle r) :=
  frame_of_units _ _ rfl rfl rfl rfl rfl rfl rfl

/-- A loop over the outputs that passes over those without a link goes over the links. -/
theorem foldlM_links {σ : Type} {g : σ → LinkOut ι → Option σ} {f : σ → ι × Nat → Option σ}
    (hnone : ∀ s b, g s ⟨none, b⟩ = some s) (hfalse : ∀ s l, g s ⟨some l, false⟩ = some s)
    (hlink : ∀ s l, g s ⟨some l, true⟩ = f s l) (x : unit ι) (s : σ) :
    x.m_outputs.foldlM g s = x.links.foldlM f s := by
  unfold unit.links
  rw [List.foldlM_filterMap]
  congr 1
  funext s out
  obtain ⟨to_in, connected⟩ := out
  cases to_in with
  | none =>
    rw [hnone]
    cases connected <;> rfl
  | some l =>
    cases connected with
    | false => exact hfalse s l
    | true => exact hlink s l

theorem continue_sync_links
    (sync_line : ι → sync_profile → sync_flag → Nat → rack ι → Option (Pass ι)) (u : ι)
    (p : sync_profile) (flags : sync_flag) (r : rack ι) :
    continue_sync sync_line u p flags r = (r.units u).links.foldlM
      (fun pass l => sync_line l.1 pass.1 flags l.2 pass.2) (p, r) := by
  refine foldlM_links (fun _ b => ?_) (fun _ _ => rfl) (fun _ _ => rfl) (r.units u) (p, r)
  cases b <;> rfl

/-! ## One unit -/

variable [DecidableEq ι]

@[simp] theorem modify_units (r : rack ι) (u v : ι) (f : unit ι → unit ι) :
    (r.modify u f).units v = if v = u then f (r.units u) else r.units v := by
  simp only [rack.modify, Function.update_apply]

/-- A change of one unit leaves a field of all units, when it leaves it of that one. -/
theorem modify_field {β : Type} (g : unit ι → β) {f : unit ι → unit ι} (hg : ∀ x, g (f x) = g x)
    (r : rack ι) (u v : ι) : g ((r.modify u f).units v) = g (r.units v) := by
  rw [modify_units]
  split
  · rename_i hv
    rw [hg, hv]
  · rfl

theorem frame_modify {env : environment ι} {glob up : Bool} (r : rack ι) (u : ι)
    {f : unit ι → unit ι}
    (hlinks : ∀ x, (f x).m_outputs = x.m_outputs ∧ (f x).m_class = x.m_class ∧
      (f x).m_rack = x.m_rack)
    (hraised : ∀ x, (f x).m_upstream = true → x.m_upstream = true)
    (hrec : glob = false → ∀ x, (f x).m_global_profile = x.m_global_profile)
    (hreg : up = false → ∀ x, (f x).m_unit_profile = x.m_unit_profile)
    (hin : up = false → ∀ x, (f x).m_input_state = x.m_input_state) :
    Frame env glob up r (r.modify u f) := by
  have hfield := fun {β : Type} (g : unit ι → β) (hg : ∀ x, g (f x) = g x) =>
    modify_field g hg r u
  refine ⟨hfield _ fun x => (hlinks x).1, hfield _ fun x => (hlinks x).2.1,
    hfield _ fun x => (hlinks x).2.2, rfl, rfl, rfl, fun h => hfield _ (hrec h),
    fun h => hfield _ (hreg h), fun h => hfield _ (hin h), rfl, [], ?_, rfl, ?_, ?_⟩
  · exact (List.append_nil _).symm
  · exact fun ask h => absurd h List.not_mem_nil
  · intro v _ hup
    rw [modify_units] at hup
    split at hup
    · rename_i hv
      subst hv
      exact .inl (hraised _ hup)
    · exact .inl hup

/-- A unit takes back its mark. -/
theorem frame_lower (env : environment ι) (glob up : Bool) (r : rack ι) (u : ι) :
    Frame env glob up r (r.modify u (unit.set_upstream false)) :=
  frame_modify r u (fun _ => ⟨rfl, rfl, rfl⟩) (fun _ h => by cases h) (fun _ _ => rfl)
    (fun _ _ => rfl) (fun _ _ => rfl)

theorem has_or (a b flag : sync_flag) : (a ||| b).has flag = (a.has flag || b.has flag) := by
  have hzero : ∀ x y : sync_flag, x ||| y = 0 ↔ x = 0 ∧ y = 0 := fun x y => BitVec.or_eq_zero_iff
  unfold sync_flag.has
  rw [Bool.eq_iff_iff, BitVec.and_or_distrib_right]
  simp only [bne_iff_ne, ne_eq, hzero, not_and_or, Bool.or_eq_true]

theorem frame_trigger_sync {env : environment ι} (glob : Bool) {up : Bool} {u : ι}
    {flags : sync_flag} {r : rack ι} (h : allowed env up r (u, flags)) :
    Frame env glob up r (unit.trigger_sync u flags r) := by
  have hmark : ∀ {β : Type} (g : unit ι → β), (∀ x b, g (unit.set_upstream b x) = g x) →
      ∀ v, g ((if flags.has sync_flags.upstream then r.modify u (unit.set_upstream true)
        else r).units v) = g (r.units v) := by
    intro β g hg v
    split
    · rw [modify_units]
      split
      · rename_i hv
        rw [hg, hv]
      · rfl
    · rfl
  have hraise : ∀ v, ((if flags.has sync_flags.upstream then r.modify u (unit.set_upstream true)
      else r).units v).m_upstream = true →
      (r.units v).m_upstream = true ∨ v = u ∧ flags.has sync_flags.upstream := by
    intro v hv
    split at hv
    · rename_i hup
      rw [modify_units] at hv
      split at hv
      · rename_i hvu
        exact .inr ⟨hvu, hup⟩
      · exact .inl hv
    · exact .inl hv
  have hrack : ∀ r' : rack ι, r' = (if flags.has sync_flags.upstream then
      r.modify u (unit.set_upstream true) else r) → r'.m_raw_mainlines = r.m_raw_mainlines ∧
        r'.m_global_profile = r.m_global_profile ∧ r'.m_cache = r.m_cache ∧
        r'.performed = r.performed ∧ r'.asked = r.asked ∧
        r'.m_resync_flags = r.m_resync_flags := by
    rintro r' rfl
    split
    · exact ⟨rfl, rfl, rfl, rfl, rfl, rfl⟩
    · exact ⟨rfl, rfl, rfl, rfl, rfl, rfl⟩
  unfold unit.trigger_sync
  generalize (if flags.has sync_flags.upstream then r.modify u (unit.set_upstream true)
    else r) = r' at hmark hraise hrack ⊢
  obtain ⟨h1, h2, hcache, h3, h4, h5⟩ := hrack r' rfl
  have hmounted := hmark (·.m_rack) (fun _ _ => rfl)
  simp only
  split
  · refine ⟨hmark _ fun _ _ => rfl, hmark _ fun _ _ => rfl, hmounted, h1, h2, hcache,
      fun _ => hmark _ fun _ _ => rfl, fun _ => hmark _ fun _ _ => rfl,
      fun _ => hmark _ fun _ _ => rfl, h3, [(u, flags)], ?_, ?_, ?_, ?_⟩
    · simp only [h4]
    · simp only [rack.trigger_sync, h5, gather, List.foldl_cons, List.foldl_nil]
    · intro ask hask
      rw [List.mem_singleton.mp hask]
      exact h
    · intro v _ hv
      rcases hraise v hv with hv | ⟨rfl, hup⟩
      · exact .inl hv
      · exact .inr ⟨flags, List.mem_singleton_self _, hup⟩
  · rename_i hout
    refine ⟨hmark _ fun _ _ => rfl, hmark _ fun _ _ => rfl, hmounted, h1, h2, hcache,
      fun _ => hmark _ fun _ _ => rfl, fun _ => hmark _ fun _ _ => rfl,
      fun _ => hmark _ fun _ _ => rfl, h3, [], ?_, h5, ?_, ?_⟩
    · rw [h4, List.append_nil]
    · exact fun ask h => absurd h List.not_mem_nil
    · -- a unit that is not mounted marks itself all the same
      intro v hv hup
      rcases hraise v hup with hup | ⟨rfl, -⟩
      · exact .inl hup
      · rw [hmounted v, hv] at hout
        exact absurd rfl hout

theorem frame_requests {env : environment ι} {u : ι} {requests : List request}
    (h : ∀ flags, .trigger_sync flags ∈ requests → env.may_ask u flags) (r : rack ι) :
    Frame env false false r (requests.foldl (unit.perform u) r) := by
  induction requests generalizing r with
  | nil => exact Frame.refl _ _ _ r
  | cons q requests ih =>
    refine Frame.trans ?_ (ih (fun flags hf => h flags (List.mem_cons_of_mem _ hf)) _)
    cases q with
    | trigger_sync flags => exact frame_trigger_sync false (.inl (h flags List.mem_cons_self))
    | trigger_cycle => exact frame_trigger_cycle env r

/-- A call of `resync` only asks the rack for syncs and cycles. -/
theorem frame_resync (env : environment ι) (u : ι) (flags : sync_flag) (r : rack ι) :
    Frame env false false r (unit.resync env u flags r) := by
  have hcall : Frame env false false r { r with calls := r.calls ++ [.resync u flags] } :=
    frame_of_units _ _ rfl rfl rfl rfl rfl rfl rfl
  exact hcall.trans (frame_requests (fun given hg => ⟨flags, r, hg⟩) _)

/-! ## One line -/

/-- The passes of `step` leave alone what a sync with their flags leaves alone. -/
def Framed (env : environment ι) (step : ι → sync_profile → sync_flag → rack ι → Option (Pass ι)) :
    Prop :=
  ∀ u p flags r pass, step u p flags r = some pass →
    Frame env (flags.has sync_flags.glob_sync) (flags.has sync_flags.upstream) r pass.2

omit [DecidableEq ι] in
theorem framed_continue {env : environment ι}
    {sync_line : ι → sync_profile → sync_flag → Nat → rack ι → Option (Pass ι)}
    (h : ∀ line, Framed env fun u p flags r => sync_line u p flags line r) :
    Framed env (continue_sync sync_line) := by
  intro u p flags r pass hp
  rw [continue_sync_links] at hp
  have htrans : ∀ a b c : Pass ι,
      Frame env (flags.has sync_flags.glob_sync) (flags.has sync_flags.upstream) a.2 b.2 →
      Frame env (flags.has sync_flags.glob_sync) (flags.has sync_flags.upstream) b.2 c.2 →
      Frame env (flags.has sync_flags.glob_sync) (flags.has sync_flags.upstream) a.2 c.2 :=
    fun _ _ _ h1 h2 => h1.trans h2
  exact walk.foldlM_relates (fun a => Frame.refl _ _ _ a.2) htrans
    (fun s t l _ ht => h l.2 l.1 s.1 flags s.2 t ht) hp

section classes

variable {env : environment ι}
  {cont : ι → sync_profile → sync_flag → rack ι → Option (Pass ι)}

theorem framed_unit (hcont : Framed env cont) (line : Nat) :
    Framed env fun u p flags r => unit.sync_line env cont u p flags line r := by
  intro u p flags r pass h
  change unit.sync_line env cont u p flags line r = some pass at h
  unfold unit.sync_line at h
  by_cases hg : flags.has sync_flags.glob_sync = true
  · rw [if_pos hg] at h
    obtain ⟨⟨q, r1⟩, h1, h2⟩ := Option.bind_eq_some_iff.mp h
    cases h2
    refine (hcont _ _ _ _ _ h1).trans (Frame.trans ?_ ((frame_resync env u flags _).weaken _ _))
    exact frame_modify r1 u (fun _ => ⟨rfl, rfl, rfl⟩) (fun _ h => h)
      (fun hf => by rw [hg] at hf; cases hf) (fun _ _ => rfl) (fun _ _ => rfl)
  · rw [if_neg hg] at h
    by_cases hu : flags.has sync_flags.upstream = true
    · rw [if_pos hu] at h
      have hreg : ∀ (r : rack ι) (f : unit ι → unit ι), (∀ x, (f x).m_outputs = x.m_outputs ∧
            (f x).m_class = x.m_class ∧ (f x).m_rack = x.m_rack) →
          (∀ x, (f x).m_upstream = true → x.m_upstream = true) →
          (∀ x, (f x).m_global_profile = x.m_global_profile) →
          Frame env (flags.has sync_flags.glob_sync) (flags.has sync_flags.upstream) r
            (r.modify u f) :=
        fun r f h1 h2 h3 => frame_modify r u h1 h2 (fun _ => h3)
          (fun hf => by rw [hu] at hf; cases hf) (fun hf => by rw [hu] at hf; cases hf)
      split at h
      · obtain ⟨⟨own, r1⟩, h1, h2⟩ := Option.bind_eq_some_iff.mp h
        cases h2
        refine (frame_lower _ _ _ r u).trans ?_
        refine ((frame_resync env u flags _).weaken _ _).trans ?_
        exact (hcont _ _ _ _ _ h1).trans
          (hreg r1 (unit.set_profile own) (fun _ => ⟨rfl, rfl, rfl⟩) (fun _ h => h) fun _ => rfl)
      · exact (hreg r (unit.register_metric .state p.state) (fun _ => ⟨rfl, rfl, rfl⟩)
          (fun _ h => h)
          fun _ => rfl).trans (hcont _ _ _ _ _ h)
    · rw [if_neg hu] at h
      have hflags : ∀ f : sync_flag,
          (if flags.has sync_flags.source then (p, flags ^^^ sync_flags.source)
            else (apply_unit_profile (r.units u).m_unit_profile p, flags)).2 = f →
          f.has sync_flags.glob_sync = flags.has sync_flags.glob_sync ∧
            f.has sync_flags.upstream = flags.has sync_flags.upstream := by
        rintro f rfl
        split
        · simp [sync_flag.has_glob_sync, sync_flag.has_upstream, sync_flags.source]
        · exact ⟨rfl, rfl⟩
      generalize (if flags.has sync_flags.source then (p, flags ^^^ sync_flags.source)
            else (apply_unit_profile (r.units u).m_unit_profile p, flags)) = pf at h hflags
      obtain ⟨h1, h2⟩ := hflags pf.2 rfl
      obtain ⟨⟨q, r1⟩, h3, h4⟩ := Option.bind_eq_some_iff.mp h
      cases h4
      have h5 := hcont _ _ _ _ _ h3
      rw [h1, h2] at h5
      exact h5.trans ((frame_resync env u _ _).weaken _ _)

theorem framed_mainline (hcont : Framed env cont) (line : Nat) :
    Framed env fun u p flags r => mainline.sync_line env cont u p flags line r := by
  intro u p flags r pass h
  change mainline.sync_line env cont u p flags line r = some pass at h
  unfold mainline.sync_line at h
  split at h
  · have hasked : Frame env (flags.has sync_flags.glob_sync) (flags.has sync_flags.upstream) r
        (if (r.units u).m_upstream then
          unit.resync env u flags (r.modify u (unit.set_upstream false)) else r) := by
      split
      · exact (frame_lower _ _ _ r u).trans ((frame_resync env u flags _).weaken _ _)
      · exact Frame.refl _ _ _ r
    exact hasked.trans (hcont _ _ _ _ _ h)
  · exact framed_unit hcont line u p flags r pass h

theorem framed_combine (hcont : Framed env cont) (line : Nat) :
    Framed env fun u p flags r => combine.sync_line env cont u p flags line r := by
  intro u p flags r pass h
  change combine.sync_line env cont u p flags line r = some pass at h
  unfold combine.sync_line at h
  by_cases hu : flags.has sync_flags.upstream = true
  · have hmod : ∀ (r : rack ι) (f : unit ι → unit ι), (∀ x, (f x).m_outputs = x.m_outputs ∧
          (f x).m_class = x.m_class ∧ (f x).m_rack = x.m_rack) →
        (∀ x, (f x).m_upstream = true → x.m_upstream = true) →
        (∀ x, (f x).m_global_profile = x.m_global_profile) →
        Frame env (flags.has sync_flags.glob_sync) (flags.has sync_flags.upstream) r
          (r.modify u f) :=
      fun r f h1 h2 h3 => frame_modify r u h1 h2 (fun _ => h3)
        (fun hf => by rw [hu] at hf; cases hf) (fun hf => by rw [hu] at hf; cases hf)
    rw [if_pos hu] at h
    have hset : ∀ b, Frame env (flags.has sync_flags.glob_sync) (flags.has sync_flags.upstream) r
        (r.modify u (combine.set_input line b)) := fun b =>
      hmod r _ (fun _ => ⟨rfl, rfl, rfl⟩) (fun _ h => h) fun _ => rfl
    have hreg : ∀ (r : rack ι) (v : Int), Frame env (flags.has sync_flags.glob_sync)
        (flags.has sync_flags.upstream) r (r.modify u (unit.register_metric .state v)) :=
      fun r v => hmod r _ (fun _ => ⟨rfl, rfl, rfl⟩) (fun _ h => h) fun _ => rfl
    split at h
    · simp only at h
      split at h
      · exact (hset true).trans ((hreg _ _).trans (hcont _ _ _ _ _ h))
      · cases h
        exact hset true
    · simp only at h
      split at h
      · split at h
        · exact (hset false).trans ((hreg _ _).trans (hcont _ _ _ _ _ h))
        · cases h
          exact hset false
      · cases h
        exact hset false
  · rw [if_neg hu] at h
    exact framed_unit hcont line u p flags r pass h

theorem framed_dispatch (hcont : Framed env cont) {line : Nat} {u : ι} {p : sync_profile}
    {flags : sync_flag} {r : rack ι} {pass : Pass ι} (hd : (r.units u).m_class = .dispatch)
    (h : dispatch.sync_line env cont u p flags line r = some pass) :
    Frame env (flags.has sync_flags.glob_sync) (flags.has sync_flags.upstream) r pass.2 := by
  unfold dispatch.sync_line at h
  by_cases hu : flags.has sync_flags.upstream = true
  · rw [if_pos hu] at h
    split at h
    · cases h
      exact Frame.refl _ _ _ _
    · have hreg : Frame env (flags.has sync_flags.glob_sync) (flags.has sync_flags.upstream) r
          (r.modify u (unit.register_metric .state p.state)) :=
        frame_modify r u (fun _ => ⟨rfl, rfl, rfl⟩) (fun _ h => h) (fun _ _ => rfl)
          (fun hf => by rw [hu] at hf; cases hf) (fun _ _ => rfl)
      have hclass : ((r.modify u (unit.register_metric .state p.state)).units u).m_class =
          .dispatch := (hreg.same_class u).trans hd
      have h1 := hreg.trans (frame_trigger_sync _ (.inr ⟨hu, hclass, rfl⟩))
      simp only at h
      split at h
      · cases h
        exact h1.trans ((frame_trigger_cycle _ _).weaken _ _)
      · cases h
        exact h1
  · rw [if_neg hu] at h
    exact framed_unit hcont line u _ flags r pass h

end classes

/-- A pass down a line leaves alone what its flags say. -/
theorem framed_sync_line (env : environment ι) (fuel line : Nat) :
    Framed env fun u p flags r => sync_line env fuel u p flags line r := by
  induction fuel generalizing line with
  | zero =>
    intro u p flags r pass h
    cases h
  | succ fuel ih =>
    have hcont := framed_continue ih
    intro u p flags r pass h
    change dispatch_sync_line env _ u p flags line r = some pass at h
    unfold dispatch_sync_line at h
    split at h
    · exact framed_unit hcont line u p flags r pass h
    · exact framed_mainline hcont line u p flags r pass h
    · exact framed_combine hcont line u p flags r pass h
    · exact framed_dispatch hcont ‹_› h

/-! ## The depth of a pass -/

/-- The walks from a unit are as deep as the fuel: the passes below end. -/
def Ends (cont : ι → sync_profile → sync_flag → rack ι → Option (Pass ι)) (u : ι)
    (succ : ι → List ι) : Prop :=
  ∀ p flags r, r.succ = succ → ∃ pass, cont u p flags r = some pass

section classes

variable {env : environment ι}
  {cont : ι → sync_profile → sync_flag → rack ι → Option (Pass ι)}

theorem ends_unit {u : ι} {succ : ι → List ι} (h : Ends cont u succ) (line : Nat) :
    Ends (fun u p flags r => unit.sync_line env cont u p flags line r) u succ := by
  intro p flags r hr
  have htoggle : (r.modify u (unit.set_upstream false)).succ = succ :=
    (frame_lower env true true r u).succ.trans hr
  change ∃ pass, unit.sync_line env cont u p flags line r = some pass
  unfold unit.sync_line
  split
  · obtain ⟨pass, hp⟩ := h _ flags r hr
    exact ⟨_, Option.bind_eq_some_iff.mpr ⟨pass, hp, rfl⟩⟩
  · split
    · split
      · obtain ⟨pass, hp⟩ := h _ flags _ ((frame_resync env u flags _).succ.trans htoggle)
        exact ⟨_, Option.bind_eq_some_iff.mpr ⟨pass, hp, rfl⟩⟩
      · have hreg : Frame env true true r (r.modify u (unit.register_metric .state p.state)) :=
          frame_modify r u (fun _ => ⟨rfl, rfl, rfl⟩) (fun _ h => h) (fun _ _ => rfl)
            (fun hf => by cases hf)
            (fun _ _ => rfl)
        exact h p flags _ (hreg.succ.trans hr)
    · generalize (if flags.has sync_flags.source then (p, flags ^^^ sync_flags.source)
        else (apply_unit_profile (r.units u).m_unit_profile p, flags)) = pf
      obtain ⟨pass, hp⟩ := h pf.1 pf.2 r hr
      exact ⟨_, Option.bind_eq_some_iff.mpr ⟨pass, hp, rfl⟩⟩

theorem ends_mainline {u : ι} {succ : ι → List ι} (h : Ends cont u succ) (line : Nat) :
    Ends (fun u p flags r => mainline.sync_line env cont u p flags line r) u succ := by
  intro p flags r hr
  change ∃ pass, mainline.sync_line env cont u p flags line r = some pass
  unfold mainline.sync_line
  split
  · refine h _ flags _ ?_
    split
    · exact (frame_resync env u flags _).succ.trans ((frame_lower env true true r u).succ.trans hr)
    · exact hr
  · exact ends_unit h line p flags r hr

theorem ends_combine {u : ι} {succ : ι → List ι} (h : Ends cont u succ) (line : Nat) :
    Ends (fun u p flags r => combine.sync_line env cont u p flags line r) u succ := by
  intro p flags r hr
  change ∃ pass, combine.sync_line env cont u p flags line r = some pass
  unfold combine.sync_line
  have hturn : ∀ (b : Bool) (v : Int), ((r.modify u (combine.set_input line b)).modify u
      (unit.register_metric .state v)).succ = succ := by
    intro b v
    have hset : Frame env true true r (r.modify u (combine.set_input line b)) :=
      frame_modify r u (fun _ => ⟨rfl, rfl, rfl⟩) (fun _ h => h) (fun _ _ => rfl) (fun _ _ => rfl)
        (fun hf => by cases hf)
    have hreg : Frame env true true _ ((r.modify u (combine.set_input line b)).modify u
        (unit.register_metric .state v)) :=
      frame_modify _ u (fun _ => ⟨rfl, rfl, rfl⟩) (fun _ h => h) (fun _ _ => rfl)
        (fun hf => by cases hf)
        (fun _ _ => rfl)
    exact (hset.trans hreg).succ.trans hr
  split
  · split
    · simp only
      split
      · exact h p flags _ (hturn true _)
      · exact ⟨_, rfl⟩
    · simp only
      split
      · split
        · exact h p flags _ (hturn false _)
        · exact ⟨_, rfl⟩
      · exact ⟨_, rfl⟩
  · exact ends_unit h line p flags r hr

theorem ends_dispatch {u : ι} {succ : ι → List ι} (h : Ends cont u succ) (line : Nat) :
    Ends (fun u p flags r => dispatch.sync_line env cont u p flags line r) u succ := by
  intro p flags r hr
  change ∃ pass, dispatch.sync_line env cont u p flags line r = some pass
  unfold dispatch.sync_line
  split
  · split
    · exact ⟨_, rfl⟩
    · simp only
      split
      · exact ⟨_, rfl⟩
      · exact ⟨_, rfl⟩
  · exact ends_unit h line _ flags r hr

end classes

omit [DecidableEq ι] in
theorem ends_continue {env : environment ι}
    {sync_line : ι → sync_profile → sync_flag → Nat → rack ι → Option (Pass ι)}
    {u : ι} {succ : ι → List ι}
    (hframed : ∀ line, Framed env fun u p flags r => sync_line u p flags line r)
    (h : ∀ v ∈ succ u, ∀ line, Ends (fun u p flags r => sync_line u p flags line r) v succ) :
    Ends (continue_sync sync_line) u succ := by
  rintro p flags r rfl
  rw [continue_sync_links]
  have hstep : ∀ s : Pass ι, s.2.succ = r.succ → ∀ l ∈ (r.units u).links,
      ∃ t, sync_line l.1 s.1 flags l.2 s.2 = some t ∧ t.2.succ = r.succ := by
    intro s hs l hl
    obtain ⟨t, ht⟩ := h l.1 (List.mem_map_of_mem hl) l.2 s.1 flags s.2 hs
    exact ⟨t, ht, (hframed l.2 l.1 s.1 flags s.2 t ht).succ.trans hs⟩
  obtain ⟨t, ht, -⟩ := walk.foldlM_some (I := fun s => s.2.succ = r.succ) hstep (s := (p, r)) rfl
  exact ⟨t, ht⟩

/-- A pass that has as much fuel as the paths below it are long ends. -/
theorem ends_sync_line (env : environment ι) {succ : ι → List ι} {k : Nat} {u : ι}
    (h : walk.Within succ k u) (line : Nat) :
    Ends (fun u p flags r => sync_line env k u p flags line r) u succ := by
  induction k generalizing u line with
  | zero => exact h.elim
  | succ k ih =>
    have hcont : Ends (continue_sync (sync_line env k)) u succ :=
      ends_continue (framed_sync_line env k) fun v hv line => ih (h v hv) line
    intro p flags r hr
    change ∃ pass, dispatch_sync_line env _ u p flags line r = some pass
    unfold dispatch_sync_line
    split
    · exact ends_unit hcont line p flags r hr
    · exact ends_mainline hcont line p flags r hr
    · exact ends_combine hcont line p flags r hr
    · exact ends_dispatch hcont line p flags r hr

end strangeio.component
