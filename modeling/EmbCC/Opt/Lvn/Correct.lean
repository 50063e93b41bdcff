import EmbCC.Opt.Copies
import EmbCC.Opt.Lvn.Link

/-!
# Local value numbering keeps every value

Along a run of a function, the register of every entry of the value table
holds what the entry's computation gives (`EntryOk`), and every address is
where the alias analysis says (`LvnInv`). So an instruction that the pass
turned into a copy finds its own result in the register it copies
(`passLvn_preserves`).
-/

namespace EmbCC.Opt

open Option List Ir Trace

/-! ## What holds along a run -/

section
variable {W : Type} {E : Env W} {ptrw : ℕ} (M : Memory ptrw E) (fn : Func)

/-- The bytes an instruction reads or writes through a register are in the objects that the address
is based on, and in no frame slot whose address the code does not take. -/
def AccessOk (s : St W) (i : Ins) : Prop :=
  ∀ u, s.temps i.a = some u → InObjects M fn i.a (bytesAt ptrw u i.size)

/-- The register of the entry holds what its computation gives now. -/
def EntryOk (memver n : ℕ) (s : St W) (e : VnEnt) : Prop :=
  (isRead e.k.op → e.k.memver = memver) →
    ∃ j vs r, j ∈ fn.ins ∧ (∃ v, vnKey j v = some e.k) ∧
      (valueOpnds j).mapM s.temps = some vs ∧ s.temps e.result = some r ∧
      effect E j vs s.world = .ok [r] s.world ∧
      (j.op = .load → AccessOk M fn s j ∧ ¬ Unwritten fn j.a n)

/-- A register whose only definition is the address of an object holds that address or nothing. -/
def ObjInv (s : St W) : Prop :=
  ∀ t i u, soleDef fn t = some i → s.temps t = some u →
    (i.op = .gaddr → u = M.addr (.global i.sym)) ∧ (i.op = .addr → u = M.addr (.slot i.a))

/-- What holds at every point of a run. -/
structure LvnInv (pc : ℕ) (s : St W) : Prop where
  reach : Relation.ReflTransGen (Flow fn) 0 pc
  taken : TakenInv fn s
  const : ConstInv fn s
  obj : ObjInv M fn s
  link : ∀ n i x c, fn.ins[n]? = some i → 0 ≤ i.dst → SoleAt fn i.dst n →
    oneValue fn (computeDefs fn) x → Link ptrw fn n i x c → ¬ Unwritten fn i.dst pc →
    Shifted ptrw s i.dst x c
  tab : ∀ i, fn.ins[pc]? = some i → i.op ≠ .label → ∀ e ∈ (lvnAt ptrw fn pc).tab,
    EntryOk M fn (lvnAt ptrw fn pc).memver pc s e

variable {M fn} {pc pc' n : ℕ} {s s' : St W} {i : Ins} {e : VnEnt} {vs rs : List Val} {world : W}
  {x : ℤ} {c : BitVec 64}

variable {j i' : Ins} {memver v : ℕ}

/-! ## Entries of the table -/

lemma entry_value (hok : LvnOk fn) (hi : fn.ins[pc]? = some i)
    (he : EntryOk M fn memver n s e) (hk : vnKey i memver = some e.k) :
    ∃ vs r, (valueOpnds i).mapM s.temps = some vs ∧ s.temps e.result = some r ∧ effect E i vs s.world = .ok [r] s.world := by
  obtain ⟨j, vs, r, hj, ⟨v, hkj⟩, hvs, hr, heff, -⟩ := he fun h => (vnKey_vol hk (vnKey_op hk ▸ h)).2
  have hm := hok.same_meaning (mem_of_getElem? hi) hj hk hkj
  have hops : valueOpnds i = valueOpnds j := by rw [← valueOpnds_meaning i, hm, valueOpnds_meaning]
  have hlen := length_mapM_temps hvs
  refine ⟨vs, r, hops ▸ hvs, hr, ?_⟩
  rw [← effect_meaning M (isValue_of_vnKey hk) (hops ▸ hlen), hm, effect_meaning M (isValue_of_vnKey hkj) hlen, heff]

lemma describes_at (hok : LvnOk fn) (hp : 0 < ptrw) (hinv : LvnInv M fn pc s) (hn : pc ≤ fn.ins.length) {a : ℤ} {size : ℕ}
    {u : Val} (ha : ¬ Unwritten fn a pc) (hu : s.temps a = some u) (hbased : ∀ r,
    Based fn a r → bytesAt ptrw u size ⊆ M.bytes r) (huntaken : ∀ v : ℤ, 0 ≤ v → v < fn.nvars → ¬ slotsTaken fn v → Disjoint
    (bytesAt ptrw u size) (M.bytes (.slot v))) : Describes M s (slotsTaken fn) fn.nvars
    (memAccess ((lvnAt ptrw fn pc).code fn) (computeDefs fn) ptrw a size) (bytesAt ptrw u size) := by
  have hcopy := @copied_code ptrw fn pc hok hn
  refine ⟨fun r hr => ?_, fun _ => huntaken, fun b hb _ => ?_⟩
  · rw [memAccess_obj] at hr
    exact hbased r (memBaseGo_based hcopy hr)
  refine (memAccess_base (D := fun t => oneValue fn (computeDefs fn) t ∧ ¬ Unwritten fn t pc) hp ?_ ?_
    ?_ hu b hb).elim fun v hv => ⟨u, v, hv.1, by rw [memAccess_size], hv.2⟩
  · rintro t i' x c ⟨hone, hw⟩ hi' hs hx
    obtain ⟨n, i, hi, hd, hl⟩ := link_of_baseStep hok hn hone hi' hs
    have hsole := soleAt_of_soleDef (oneValue_iff.1 hone).2.1 hi hd
    obtain rfl := hl.dst_eq hd
    refine ⟨⟨hx, fun hux => hw (hux.of_source hsole (hl.written hok hi))⟩,
      hinv.link n i x c hi (oneValue_iff.1 hone).1 hsole hx hl hw⟩
  · rintro t i' u ⟨hone, -⟩ hi' hu
    obtain ⟨h0, -, hcnt, -⟩ := oneValue_iff.1 hone
    obtain ⟨i, hi, rfl | ⟨hmov, -⟩⟩ := soleDef_of_insOf hcopy h0 hcnt hi'
    · exact hinv.obj t i' u hi hu
    · simp [hmov]
  · exact fun h => ⟨h, ha⟩

lemma shifted_exec (hw : i.op = .add ∨ i.op = .sub → i.w = ptrw → ptrw = 4 ∨ ptrw = 8) (hok : LvnOk fn)
    (hinv : LvnInv M fn pc s) (hi : fn.ins[pc]? = some i) (hl : Link ptrw fn pc i x c) (hx : x ≠ i.dst) (h0 : 0 ≤ i.dst)
    (hvs : (valueOpnds i).mapM s.temps = some vs) (he : effect E i vs s.world = .ok rs world) : Shifted ptrw
    (s.after i rs world) i.dst x c := by
  have htd := hl.tempDefs
  have hkeep : (s.after i rs world).temps x = s.temps x :=
    after_temps_of_not_mem (by rw [htd]; simpa using hx) rs world
  have hadds : Adds ptrw fn (computeDefs fn) i x c → Shifted ptrw (s.after i rs world) i.dst x c := by
    intro h
    obtain ⟨u, v, rfl, hv, hmod⟩ := h.shifted hw (fun y k w _ hk hy => addrConst_holds hinv.const hk hy) hvs he
    exact ⟨u, v, after_temps_dst h0 htd, by rw [hkeep, hv], hmod⟩
  cases hl with
  | mov hop => exact hadds (.mov hop)
  | imm hop hflt hiw himm => exact hadds (.imm hop hflt hiw himm)
  | right hop hflt hiw himm hconst => exact hadds (.right hop hflt hiw himm hconst)
  | left hadd hflt hiw himm hconst => exact hadds (.left hadd hflt hiw himm hconst)
  | copy hmem hk _ hop _ =>
    obtain ⟨vs', r, hvs', hr, heff⟩ := entry_value hok hi (hinv.tab i hi hop _ hmem) hk
    obtain rfl := mem_unique hvs hvs'
    rw [heff] at he
    obtain ⟨rfl, rfl⟩ : [r] = rs ∧ s.world = world := by simpa using he
    exact ⟨r, r, after_temps_dst h0 htd, by rw [hkeep, hr], by simp⟩

variable {o : Option Event}

lemma soleAt_of_oneValue (hx : oneValue fn (computeDefs fn) x) (hi : fn.ins[pc]? = some i)
    (hd : x ∈ tempDefs i) : SoleAt fn x pc := by
  obtain ⟨h0, hlt, hcnt, -⟩ := oneValue_iff.1 hx
  obtain ⟨hp, honly⟩ := only_of_cnt hcnt hi (mem_countedDefs h0 hlt hd)
  exact ⟨hp h0 hlt, fun m j hj hjd => honly m j hj (mem_countedDefs h0 hlt hjd)⟩

/-- A step keeps the distances between addresses. -/
lemma link_step (hw : ∀ i ∈ fn.ins, i.op = .add ∨ i.op = .sub → i.w = ptrw → ptrw = 4 ∨ ptrw = 8) (hok : LvnOk fn)
    (hinv : LvnInv M fn pc s) (hj : fn.ins[pc]? = some j) (h : step fn.prog E (some (pc, s)) = some (o, some (pc', s')))
    (hi : fn.ins[n]? = some i) (h0 : 0 ≤ i.dst) (hsole : SoleAt fn i.dst n) (hx : oneValue fn (computeDefs fn) x)
    (hl : Link ptrw fn n i x c) (hnew : ¬ Unwritten fn i.dst pc') : Shifted ptrw s' i.dst x c := by
  rcases step_writes hinv.taken hj h with ⟨htemps, hback⟩ | ⟨vs, rs, world, hvs, he, rfl, rfl, -, hback⟩
  · obtain ⟨u, v, hu, hv, hmod⟩ := hinv.link n i x c hi h0 hsole hx hl fun hu => hnew (hback _ hu)
    exact ⟨u, v, by rw [htemps, hu], by rw [htemps, hv], hmod⟩
  · by_cases hd : i.dst ∈ tempDefs j
    · obtain rfl := hsole.only pc j hj hd
      obtain rfl := mem_unique hi hj
      refine shifted_exec (hw i (mem_of_getElem? hi)) hok hinv hi hl ?_ h0 hvs he
      -- the first time around, the definition finds its own register unwritten
      rintro rfl
      exact hl.written hok hi (hsole.unwritten hinv.reach)
    · have hold : ¬ Unwritten fn i.dst pc := fun hu => hnew (hback _ hd hu)
      obtain ⟨u, v, hu, hv, hmod⟩ := hinv.link n i x c hi h0 hsole hx hl hold
      have hxd : x ∉ tempDefs j := fun hxd => hold
        (unwritten_at_source hsole (hl.written hok hi) (soleAt_of_oneValue hx hj hxd) hinv.reach)
      exact ⟨u, v, by rw [after_temps_of_not_mem hd, hu], by rw [after_temps_of_not_mem hxd, hv], hmod⟩

/-- A step keeps that addresses of objects are where they belong. -/
lemma obj_step (hregs : ∀ i ∈ fn.ins, ∀ t ∈ tempDefs i, t < fn.nvregs) (hobj : ObjInv M fn s) (hj : fn.ins[pc]? = some j)
    (h : step fn.prog E (some (pc, s)) = some (o, some (pc', s'))) : ObjInv M fn s' := by
  intro t i u hd hu
  rcases step_cases (prog_code hj) h with ⟨-, rfl, -⟩ | ⟨-, ⟨vs, rs, world, -, he, -, -, rfl⟩ | ⟨world, rfl, -⟩⟩
  · exact hobj t i u hd hu
  · by_cases ht : t ∈ tempDefs j
    · obtain ⟨n, hn, -, h0, -, huniq⟩ := soleDef_spec hd
      obtain rfl := huniq pc j hj (mem_countedDefs h0 (hregs j (mem_of_getElem? hj) t ht) ht)
      obtain rfl := mem_unique hn hj
      have hval : i.op = .gaddr ∨ i.op = .addr → ∃ r, u = r ∧ E.sem i vs s.world = .ok [r] s.world := by
        intro hop
        have hv : isValue i.op := by rcases hop with hop | hop <;> simp [hop, isValue]
        obtain ⟨r, rfl, hr⟩ := effect_value M hv he
        have htd : tempDefs i = [i.dst] := by
          rcases hop with hop | hop <;> simp [Ir.tempDefs, hop, writesTemp]
        rw [htd, mem_singleton] at ht
        subst ht
        rw [after_temps_dst h0 htd] at hu
        refine ⟨r, (some.inj hu).symm, ?_⟩
        rw [← hr s.world, effect_sem (by rcases hop with hop | hop <;> simp [isCore, hop])
          (by rcases hop with hop | hop <;> simp [hop])]
      constructor
      · intro hop
        obtain ⟨r, rfl, hr⟩ := hval (.inl hop)
        exact M.gaddr hop hr
      · intro hop
        obtain ⟨r, rfl, hr⟩ := hval (.inr hop)
        exact M.slotAddr hop hr
    · exact hobj t i u hd (by rwa [after_temps_of_not_mem ht] at hu)
  · exact hobj t i u hd hu

lemma footprint_access (hpl : PlainIns i) (hop : i.op = .load ∨ i.op = .store)
    (hvs : (valueOpnds i).mapM s.temps = some vs) :
    ∃ u, s.temps i.a = some u ∧ footprint ptrw M.bytes i vs = bytesAt ptrw u i.size := by
  have hpl0 : ∀ u, u + BitVec.ofInt 128 i.memoff = u := by
    rw [hpl.memoff]
    simp
  rcases hop with hop | hop
  · have hops : valueOpnds i = [i.a] := by simp [valueOpnds, eachRead, hop]
    obtain ⟨u, hu, rfl⟩ := mapM_temps_one (hops ▸ hvs)
    exact ⟨u, hu, by simp [footprint, hop, hpl0]⟩
  · have hops : valueOpnds i = [i.a, i.b] := by simp [valueOpnds, eachRead, hop]
    obtain ⟨u, v, hu, -, rfl⟩ := mapM_temps_two (hops ▸ hvs)
    exact ⟨u, hu, by simp [footprint, hop, hpl0]⟩

section
variable (hok : LvnOk fn) (hp : 0 < ptrw) (hinv : LvnInv M fn pc s)
include hok hp hinv

lemma describes_write (hi : fn.ins[pc]? = some i) {m : MAccess}
    (hm : lvnAccess ((lvnAt ptrw fn pc).code fn) (computeDefs fn) ptrw i = some m)
    (hacc : i.op = .store → AccessOk M fn s i) (hvs : (valueOpnds i).mapM s.temps = some vs) :
    (i.op = .store ∨ i.op = .stvar) ∧ Describes M s (slotsTaken fn) fn.nvars m (footprint ptrw M.bytes i vs) := by
  have hmem := mem_of_getElem? hi
  unfold lvnAccess at hm
  split at hm
  · cases hm
  · split at hm
    · rename_i hop
      cases hm
      obtain ⟨u, hu, hfoot⟩ := @footprint_access _ _ _ M _ _ _ (hok.plain i hmem) (.inr hop) hvs
      rw [hfoot]
      exact ⟨.inl hop, describes_at hok hp hinv (getElem?_lt hi).le
        (hok.written pc i hi i.a (by simp [valueOpnds, eachRead, hop])) hu
        (hacc hop u hu).1 (hacc hop u hu).2⟩
    · split at hm
      · rename_i hop
        cases hm
        refine ⟨.inr hop.1, ?_⟩
        rw [show footprint ptrw M.bytes i vs = M.bytes (.slot i.dst) by simp [footprint, hop.1]]
        exact describes_slotAccess _
      · cases hm

lemma describes_read (hn : pc ≤ fn.ins.length) (hj : j ∈ fn.ins) (hk : vnKey j v = some e.k) (hr : isRead j.op)
    (hvs : (valueOpnds j).mapM s.temps = some vs) (hload : j.op = .load → AccessOk M fn s j ∧ ¬ Unwritten fn j.a pc) :
    Describes M s (slotsTaken fn) fn.nvars (e.k.access ((lvnAt ptrw fn pc).code fn) (computeDefs fn) ptrw)
    (footprint ptrw M.bytes j vs) := by
  obtain ⟨ha, hsz⟩ := vnKey_read hk hr
  unfold Vn.access
  rw [vnKey_op hk, ha, hsz]
  split_ifs with hop
  · obtain ⟨u, hu, hfoot⟩ := @footprint_access _ _ _ M _ _ _ (hok.plain j hj) (.inl hop) hvs
    rw [hfoot]
    obtain ⟨hacc, hw⟩ := hload hop
    exact describes_at hok hp hinv hn hw hu (hacc u hu).1 (hacc u hu).2
  · have hld : j.op = .ldvar := by
      revert hr hop
      cases j.op <;> simp [isRead]
    rw [show footprint ptrw M.bytes j vs = M.bytes (.slot j.a) by simp [footprint, hld]]
    exact describes_slotAccess _

end

/-- An entry of the table that an instruction leaves holds after it. -/
lemma entry_survives (hok : LvnOk fn) (hinv : LvnInv M fn pc s) (hi : fn.ins[pc]? = some i) (hop : i.op ≠ .label)
    (hi' : fn.ins[pc + 1]? = some i') (hop' : i'.op ≠ .label)
    (htemps : ∀ t, (t ∈ tempDefs i → t < 0) → s'.temps t = s.temps t) (hbytes : (writesMemory i.op = false ∨
        ∃ w, lvnAccess ((lvnAt ptrw fn pc).code fn) (computeDefs fn) ptrw i = some w ∧
          accOverlap ptrw w (e.k.access ((lvnAt ptrw fn pc).code fn) (computeDefs fn) ptrw) (slotsTaken fn) fn.nvars = false) →
      ∀ {j : Ins} {v : ℕ} {us : List Val}, j ∈ fn.ins → vnKey j v = some e.k → isRead j.op →
        (valueOpnds j).mapM s.temps = some us → (j.op = .load → AccessOk M fn s j ∧ ¬ Unwritten fn j.a pc) →
        ∀ b ∈ footprint ptrw M.bytes j us, M.get s'.world b = M.get s.world b)
    (hnew : e ∈ (lvnTurn ptrw fn (lvnAt ptrw fn pc) i).2.tab) (hmem : e ∈ (lvnAt ptrw fn pc).tab)
    (hkill : ∀ t ∈ tempDefs i, 0 ≤ t → e.k.a ≠ t ∧ e.k.b ≠ t ∧ e.result ≠ t) :
    EntryOk M fn (lvnTurn ptrw fn (lvnAt ptrw fn pc) i).2.memver (pc + 1) s' e := by
  intro hver
  obtain ⟨m, j0, hsrc⟩ := entry_source (getElem?_lt hi).le hmem
  obtain ⟨v0, hv0, hk0⟩ := hsrc.key
  have hread : isRead e.k.op → _ := fun hr =>
    read_turn hnew hr ((vnKey_vol hk0 (vnKey_op hk0 ▸ hr)).2 ▸ hv0) (hver hr)
  obtain ⟨j, us, r, hj, ⟨v, hk⟩, hus, hres, heff, hload⟩ := hinv.tab i hi hop e hmem fun hr => (hread hr).1
  have hkeep : ∀ t, t = e.k.a ∨ t = e.k.b ∨ t = e.result → s'.temps t = s.temps t := by
    intro t ht
    refine htemps t fun htd => lt_of_not_ge fun h0 => ?_
    obtain ⟨ha, hb, hr⟩ := hkill t htd h0
    rcases ht with rfl | rfl | rfl
    · exact ha rfl
    · exact hb rfl
    · exact hr rfl
  have hops : ∀ t ∈ valueOpnds j, s'.temps t = s.temps t := fun t ht =>
    hkeep t ((mem_key_of_valueOpnds hk (hok.plain j hj) ht).elim .inl (.inr ∘ .inl))
  refine ⟨j, us, r, hj, ⟨v, hk⟩, (mapM_temps_congr hops).trans hus, (hkeep _ (.inr (.inr rfl))).trans hres, ?_, fun hld => ?_⟩
  · rcases isValue_of_vnKey hk with hval | hr
    · obtain ⟨r', hrr, hall⟩ := effect_value M hval heff
      rw [hrr, hall]
    · obtain ⟨r', hrr, hall⟩ := effect_read M hr (vnKey_vol hk hr).1 heff
      have hr' : isRead e.k.op := by rwa [vnKey_op hk]
      rw [hrr, hall _ (hbytes (hread hr').2 hj hk hr hus hload)]
  · obtain ⟨haccj, hw⟩ := hload hld
    have haj : s'.temps j.a = s.temps j.a := hops j.a (by simp [valueOpnds, eachRead, hld])
    exact ⟨fun u hu => haccj u (by rwa [haj] at hu), fun hu => hw (hu.pred hi' hop').1⟩

lemma entry_made (hok : LvnOk fn) (hi : fn.ins[pc]? = some i) (hacc : i.op = .load → AccessOk M fn s i)
    (hvs : (valueOpnds i).mapM s.temps = some vs) (he : effect E i vs s.world = .ok rs world)
    (hi' : fn.ins[pc + 1]? = some i') (hop' : i'.op ≠ .label) (h0 : 0 ≤ i.dst) (hk : vnKey i v = some e.k)
    (hres : e.result = i.dst) : EntryOk M fn memver (pc + 1) (s.after i rs world) e := by
  intro _
  have hmem := mem_of_getElem? hi
  have htd := tempDefs_of_vnKey hk
  have hfresh := hok.fresh i hmem (vnKey_zero_ne hk)
  have hops : ∀ t ∈ valueOpnds i, (s.after i rs world).temps t = s.temps t := fun t ht =>
    after_temps_of_not_mem (by rw [htd, mem_singleton]; rintro rfl; exact hfresh ht) rs world
  obtain ⟨r, rfl, heff⟩ : ∃ r, rs = [r] ∧ effect E i vs world = .ok [r] world := by
    rcases isValue_of_vnKey hk with hval | hr
    · obtain ⟨r, rfl, hall⟩ := effect_value M hval he
      exact ⟨r, rfl, hall _⟩
    · obtain ⟨r, rfl, hall⟩ := effect_read M hr (vnKey_vol hk hr).1 he
      have hsame := hall s.world fun _ _ => rfl
      obtain rfl : s.world = world := by simpa using hsame.symm.trans he
      exact ⟨r, rfl, hsame⟩
  refine ⟨i, vs, r, hmem, ⟨v, hk⟩, (mapM_temps_congr hops).trans hvs, hres ▸ after_temps_dst h0 htd, heff, fun hld => ?_⟩
  have ha : i.a ∈ valueOpnds i := by simp [valueOpnds, eachRead, hld]
  refine ⟨fun u hu => hacc hld u (by rwa [hops _ ha] at hu), fun hu => ?_⟩
  exact hok.written pc i hi _ ha (hu.pred hi' hop').1

/-- A step keeps what the table says. -/
lemma tab_step (hok : LvnOk fn) (hp : 0 < ptrw) (hinv : LvnInv M fn pc s) (hi : fn.ins[pc]? = some i)
    (hacc : i.op = .load ∨ i.op = .store → AccessOk M fn s i) (h : step fn.prog E (some (pc, s)) = some (o, some (pc', s')))
    (hi' : fn.ins[pc']? = some i') (hop' : i'.op ≠ .label) (he : e ∈ (lvnAt ptrw fn pc').tab) : EntryOk M fn
    (lvnAt ptrw fn pc').memver pc' s' e := by
  have hnot := labelAt_ne hi' hop'
  rcases step_cases (prog_code hi) h with ⟨-, rfl, ⟨rfl, hop⟩ | ⟨l, -, hat⟩⟩ |
    ⟨hctl, ⟨vs, rs, world, hvs, heff, -, rfl, rfl⟩ | ⟨world, -, l, -, hat⟩⟩
  · rw [lvnAt_succ hi] at he ⊢
    obtain ⟨hl, ⟨hmem, -, -, hkill⟩ | ⟨-, hk, -⟩⟩ := mem_turn he
    · exact entry_survives hok hinv hi hl hi' hop' (fun _ _ => rfl) (fun _ _ _ _ _ _ _ _ _ _ _ => rfl) he hmem hkill
    · have hv := isValue_of_vnKey hk
      rcases hop with hop | hop | hop <;> simp [hop, isValue, isRead] at hv
  · exact absurd hat (hnot l)
  · rw [lvnAt_succ hi] at he ⊢
    obtain ⟨hl, ⟨hmem, -, -, hkill⟩ | ⟨h0, hk, hres⟩⟩ := mem_turn he
    · refine entry_survives hok hinv hi hl hi' hop' (fun t ht => after_temps_keep ht rs world)
        (fun hsafe _ _ _ hj hkj hr hus hload b hb => ?_) he hmem hkill
      rcases hsafe with hw | ⟨w, hw, hover⟩
      · exact congrFun (effect_keep M hw heff) b
      · obtain ⟨hop, hdw⟩ := describes_write hok hp hinv hi hw (fun hs => hacc (.inr hs)) hvs
        have hdr := describes_read hok hp hinv (getElem?_lt hi).le hj hkj hr hus hload
        have hdisj := accOverlap_sound hp hdw hdr (fun _ _ _ => rfl) hover
        rw [effect_store hop] at heff
        exact M.write hop heff b fun hbw => Set.disjoint_left.1 hdisj hbw hb
    · exact entry_made hok hi (fun hld => hacc (.inl hld)) hvs heff hi' hop' h0 hk hres
  · exact absurd hat (hnot l)

lemma objInv_entry (hparams : fn.nparams ≤ fn.nvregs) (hs : Entry fn s) : ObjInv M fn s := by
  intro t i u hd hu
  obtain ⟨n, -, -, -, hlt, -⟩ := soleDef_spec hd
  rw [hs.temps t (by by_cases ht : t < fn.nvregs; exact hlt ht; omega)] at hu
  cases hu

lemma lvnInv_entry (hparams : fn.nparams ≤ fn.nvregs) (hs : Entry fn s) : LvnInv M fn 0 s where
  reach := .refl
  taken := fun l hl => by rw [hs.taken] at hl; cases hl
  const := hs.constInv hparams
  obj := objInv_entry hparams hs
  link := fun n i x c hi h0 hsole _ _ hnew => absurd (.entry hsole.param) hnew
  tab := fun _ _ _ e he => by cases he

/-! ## The pass -/

/-- The function that the pass makes goes through the states of the function it was given, and
where an instruction was made a copy, the copied register holds what the instruction gives. -/
def LvnFaithful (E : Env W) (ptrw : ℕ) (fn : Func) (s₀ : St W) : Prop :=
  (∀ n, after (step (passLvn ptrw fn).prog E) n (some (0, s₀)) =
    after (step fn.prog E) n (some (0, s₀))) ∧
  ∀ pc s i i', Reaches (step fn.prog E) (some (0, s₀)) (some (pc, s)) → fn.ins[pc]? = some i →
    (passLvn ptrw fn).ins[pc]? = some i' → i' = i ∨
      ∃ src vs r, i' = vnToMov i src ∧ (valueOpnds i).mapM s.temps = some vs ∧
        effect E i vs s.world = .ok [r] s.world ∧ s.temps src = some r

lemma passLvn_copying (ptrw : ℕ) (fn : Func) : Copying fn (passLvn ptrw fn) := by
  refine ⟨rfl, rfl, passLvn_length ptrw fn, fun n i hi => ?_⟩
  rcases @passLvn_cases ptrw fn n i hi with h | ⟨e, -, -, -, hk, -, h⟩
  · exact .inl h
  · exact .inr ⟨_, h, rfl, vnToMov_dst _, isValue_of_vnKey hk⟩

/-- Local value numbering leaves the value that every instruction writes, in every run in which
every access stays in the object its address is based on: for code in which equal keys are equal
computations, no computation writes its own operand, and registers are written before they are
read. -/
theorem passLvn_preserves (M : Memory ptrw E) (fn : Func) (s₀ : St W) (hp : 0 < ptrw)
    (hw : ∀ i ∈ fn.ins, i.op = .add ∨ i.op = .sub → i.w = ptrw → ptrw = 4 ∨ ptrw = 8)
    (hparams : fn.nparams ≤ fn.nvregs)
    (hregs : ∀ i ∈ fn.ins, ∀ t ∈ tempDefs i, t < fn.nvregs) (hs : Entry fn s₀) (hok : LvnOk fn)
    (hacc : ∀ pc s i, Reaches (step fn.prog E) (some (0, s₀)) (some (pc, s)) →
      fn.ins[pc]? = some i → i.op = .load ∨ i.op = .store → AccessOk M fn s i) :
    LvnFaithful E ptrw fn s₀ := by
  have hinv : ∀ c, Reaches (step fn.prog E) (some (0, s₀)) c → ∀ pc s, c = some (pc, s) → LvnInv M fn pc s :=
    reaches_invariant (lvnInv_entry hparams hs) fun hreach hinv hi h =>
      { reach := hinv.reach.tail (flow_of_step hinv.taken hi h)
        taken := takenInv_step hinv.taken hi h
        const := constInv_step hregs hinv.const hi h
        obj := obj_step hregs hinv.obj hi h
        link := fun _ _ _ _ hj h0 hsole hx hl => link_step hw hok hinv hi h hj h0 hsole hx hl
        tab := fun _ hi' hop' _ he => tab_step hok hp hinv hi (hacc _ _ _ hreach hi) h hi' hop' he }
  refine (passLvn_copying ptrw fn).after_eq (fun _ _ => rfl) fun pc s i i' hc hi hi' => ?_
  rcases @passLvn_cases ptrw fn pc i hi with h | ⟨e, he, -, hop, hk, -, h⟩
  · exact .inl (mem_unique hi' h)
  · obtain rfl := mem_unique hi' h
    obtain ⟨vs, r, hvs, hr, heff⟩ := entry_value hok hi ((hinv _ hc pc s rfl).tab i hi hop e he) hk
    exact .inr ⟨e.result, vs, r, rfl, hvs, heff, hr⟩

end

/-- Read a byte, store it elsewhere, and read it again. -/
def reload : Func where
  ins := [{ op := .gaddr, dst := 0, w := 8, sym := 0, ptr := some 0 },
    { op := .gaddr, dst := 1, w := 8, sym := 1, ptr := some 1 },
    { op := .load, dst := 2, a := 0, size := 1, w := 4 },
    { op := .store, a := 1, b := 2, size := 1 },
    { op := .load, dst := 3, a := 0, size := 1, w := 4 },
    { op := .ret, a := 3, w := 4 }]
  nvregs := 4

lemma reload_ok : LvnOk reload := by
  have hop : ∀ i ∈ reload.ins, i.op ∈ [Op.gaddr, .load, .store, .ret] := by decide
  refine ⟨?_, fun i hi j hj _ hk => ⟨fun h => ?_, fun h => ?_, fun h => ?_⟩, by decide,
    writtenFirst_of_straight (by decide) (by decide)⟩
  · intro i hi
    simp only [reload, mem_cons, not_mem_nil, or_false] at hi
    rcases hi with rfl | rfl | rfl | rfl | rfl | rfl <;> exact ⟨by decide, by decide, rfl⟩
  · have := hop i hi
    simp [h] at this
  · have := hop i hi
    rcases h with h | h | h | h <;> simp [h] at this
  · revert i j
    decide

lemma reload_access {pc : ℕ} {s : St (ℕ → BitVec 8)} {i : Ins} (h : Reaches (step reload.prog ⟨byteSem, fun _ => 0⟩)
      (some (0, ⟨fun _ => none, [], fun _ => 0⟩)) (some (pc, s))) (hi : reload.ins[pc]? = some i)
      (hop : i.op = .load ∨ i.op = .store) : AccessOk byteMemory reload s i := by
  have hobj : ObjInv byteMemory reload s :=
    reaches_invariant (objInv_entry (by decide) ⟨fun _ _ => rfl, rfl⟩)
      (fun _ hobj hi h => obj_step (by decide) hobj hi h) _ h pc s rfl
  have haddr : i.size = 1 ∧ ∃ g : ℕ, g < 2 ∧ i.a = g ∧ soleDef reload g = some
      { op := .gaddr, dst := g, w := 8, sym := g, ptr := some g } := by
    have hmem := mem_of_getElem? hi
    simp only [reload, mem_cons, not_mem_nil, or_false] at hmem
    rcases hmem with rfl | rfl | rfl | rfl | rfl | rfl
    · simp at hop
    · simp at hop
    · exact ⟨rfl, 0, by decide, rfl, by decide⟩
    · exact ⟨rfl, 1, by decide, rfl, by decide⟩
    · exact ⟨rfl, 0, by decide, rfl, by decide⟩
    · simp at hop
  obtain ⟨hsz, g, hg, ha, hd⟩ := haddr
  intro u hu
  rw [ha] at hu ⊢
  obtain rfl := (hobj g _ u hd hu).1 rfl
  refine ⟨fun r hr => ?_, fun v h0 hv => absurd (h0.trans_lt hv) (by decide)⟩
  obtain rfl : r = .global g := by cases hr <;> simp_all
  rw [hsz, bytesAt_one]
  have hg16 : g % 16 = g := Nat.mod_eq_of_lt (by omega)
  simp [byteMemory, hg16, show g < 16 by omega]
  omega

/-- The second read becomes a copy of the first, and the copy is right. -/
theorem passLvn_preserves_reload : (passLvn 8 reload).ins[4]? = some
      { op := .mov, dst := 3, a := 2, b := -1, size := 1, w := 4 } ∧
    LvnFaithful ⟨byteSem, fun _ => 0⟩ 8 reload ⟨fun _ => none, [], fun _ => 0⟩ :=
  ⟨by decide, passLvn_preserves byteMemory reload _ (by decide) (by decide) (by decide)
    (by decide) ⟨fun _ _ => rfl, rfl⟩ reload_ok fun _ _ _ => reload_access⟩

/-- Two comparisons with different immediates. -/
def cmpTwice : Func where
  ins := [{ op := .const, dst := 0, w := 4, imm := 1 },
    { op := .cmp, dst := 1, a := 0, w := 4, immB := true, imm := 1 },
    { op := .cmp, dst := 2, a := 0, w := 4, immB := true, imm := 2 },
    { op := .ret, a := 2, w := 4 }]
  nvregs := 3

/-- A sum that replaces its operand, and the same sum again. -/
def stepTwice : Func where
  ins := [{ op := .const, dst := 0, w := 4, imm := 1 },
    { op := .add, dst := 0, a := 0, w := 4, immB := true, imm := 1 },
    { op := .add, dst := 1, a := 0, w := 4, immB := true, imm := 1 },
    { op := .ret, a := 1, w := 4 }]
  nvregs := 2

/-- The second comparison becomes a copy of the first, which gave another value; and so does the
second sum, which adds to the new value of the register. -/
theorem passLvn_wrong_copy : (∀ fn ∈ [cmpTwice, stepTwice], WrittenFirst fn ∧ (∀ i ∈ fn.ins, PlainIns i) ∧
      Entry fn St.blank) ∧
    ¬ LvnFaithful Env.bare 8 cmpTwice St.blank ∧ ¬ LvnFaithful Env.bare 8 stepTwice St.blank := by
  refine ⟨?_, fun h => ?_, fun h => ?_⟩
  · intro fn hfn
    simp only [mem_cons, not_mem_nil, or_false] at hfn
    rcases hfn with rfl | rfl
    · refine ⟨writtenFirst_of_straight (by decide) (by decide), fun i hi => ?_, blank_entry _⟩
      simp only [cmpTwice, mem_cons, not_mem_nil, or_false] at hi
      rcases hi with rfl | rfl | rfl | rfl <;> exact ⟨by decide, by decide, rfl⟩
    · refine ⟨writtenFirst_of_straight (by decide) (by decide), fun i hi => ?_, blank_entry _⟩
      simp only [stepTwice, mem_cons, not_mem_nil, or_false] at hi
      rcases hi with rfl | rfl | rfl | rfl <;> exact ⟨by decide, by decide, rfl⟩
  · have hsame := congrArg (Option.map (Option.map fun p => p.2.temps 2)) (h.1 3)
    revert hsame
    decide
  · have hsame := congrArg (Option.map (Option.map fun p => p.2.temps 1)) (h.1 3)
    revert hsame
    decide

end EmbCC.Opt
