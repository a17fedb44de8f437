import ScriptFlow.Proofs.Advisory
import ScriptFlow.Proofs.Coordinates
import ScriptFlow.Proofs.Encoding
import ScriptFlow.Proofs.Refusal
import ScriptFlow.Proofs.TopDown

/-! A script on its way through the service. What is drawn of it is sent as JSON, read back as the
flow that it was, and gives the document that is read back on the spot. Two things come between. A
field whose key is withheld is gone from both answers. A number that is not finite is gone from the
flow that is sent, and a document with one is not answered. -/

namespace ScriptFlow

/-- A node is read back from what it is written as, up to the numbers that are not finite. -/
theorem Node.ofJson_toJson (origin : Origin) (n : Node) :
    Node.ofJson origin n.toJson = .accepted n.dumped := by
  have hkind : Read.choice NodeKind.all NodeKind.name (.str n.kind.name) = .accepted n.kind := by
    cases n.kind <;> decide
  have hposition : Point.ofJson origin n.position.toJson = .accepted n.position := rfl
  have htexts : ∀ ts : List String, Read.list Read.text (.arr (ts.map .str)) = .accepted ts :=
    fun _ => Read.list_map fun _ _ => rfl
  simp [Node.ofJson, Node.toJson, Node.ofFields, Node.dumped, Read.record, Read.requiredOr,
    Read.required, Read.field, Read.fieldOr, Fields.get?, List.lookup_cons, hkind, hposition,
    htexts, Read.text, Read.object, Checked.under, Checked.map, Checked.apply]

theorem Edge.ofJson_toJson (origin : Origin) (e : Edge) :
    Edge.ofJson origin e.toJson = .accepted e := by
  have hbranch : Read.choice Branch.all Branch.name (.str e.branch.name) = .accepted e.branch := by
    cases e.branch <;> decide
  have hdata : Read.boolean (.bool e.isData) = .accepted e.isData := rfl
  simp [Edge.ofJson, Edge.toJson, Edge.ofFields, Read.record, Read.requiredOr, Read.required,
    Read.field, Read.fieldOr, Fields.get?, List.lookup_cons, hbranch, hdata, Read.text,
    Checked.under, Checked.map, Checked.apply]

namespace Graph

/-- The nodes and the edges as they are written. -/
def nodesJson (g : Graph) : Json := .arr (g.nodes.map Node.toJson)

def edgesJson (g : Graph) : Json := .arr (g.edges.map Edge.toJson)

/-- A flow is read from the fields that it is written in, whatever fields come after them. -/
theorem ofFields_toJson {g : Graph} (h : ∀ n ∈ g.nodes, n.Passes .finite) (origin : Origin)
    (fs : Fields) :
    ofFields origin (("nodes", g.nodesJson) :: ("edges", g.edgesJson) :: fs) = .accepted g := by
  have hnodes : Read.list (Node.ofJson origin) g.nodesJson = .accepted g.nodes :=
    Read.list_map fun n hn => (n.ofJson_toJson origin).trans
      (congrArg Checked.accepted (Node.dumped_of_passes (h n hn)))
  have hedges : Read.list (Edge.ofJson origin) g.edgesJson = .accepted g.edges :=
    Read.list_map fun e _ => e.ofJson_toJson origin
  simp [ofFields, Read.field, Fields.get?, List.lookup_cons, hnodes, hedges, Checked.under,
    Checked.map, Checked.apply]

end Graph

/-- The fault of a script is that of a record that cannot be read, for a part of the script. -/
theorem Document.exists_of_noteFault? {d : Document} {f : Fault} (h : d.noteFault? = some f) :
    ∃ record issues, f = .schema record issues ∧
      ∀ σ, (∀ c ∈ d.capabilities, c.Passes σ) → ∀ i ∈ issues, i.input.Passes σ := by
  obtain ⟨a?, hmem, ha⟩ := List.exists_of_findSome?_eq_some h
  obtain ⟨a, rfl, hf⟩ := Option.bind_eq_some_iff.mp ha
  obtain ⟨record, issues, rfl, hissues⟩ := Action.exists_of_noteFault? hf
  refine ⟨record, issues, rfl, fun σ hd => hissues σ ?_⟩
  have hevery : d.Every (Action.Passes σ) := fun c hc => (hd c hc).actions
  exact Document.every_iff_preorder.mp hevery a hmem

/-- The flow that is drawn of a script that was read is always read back. -/
theorem exists_rebuild_of_draw {fs : Fields} {d : Document} {stem : String} {g : Graph}
    (hd : Document.ofJson (.obj fs) = .accepted d) (h : d.draw stem = .ok g) :
    ∃ r, g.rebuild (.obj fs) = .ok r := by
  obtain ⟨-, hparts⟩ := Document.of_ofJson hd
  have hkeys : d.Every Action.KeysApart := fun c hc => (hparts c hc).2
  have hcapabilities := Document.keysApart_tidy fun c hc => (hparts c hc).1
  obtain ⟨gt, hgt, halike⟩ := Document.exists_draw_tidy h hkeys
  have hrestored := Document.every_restored_tidy h hkeys
  exact ⟨_, bind_eq_ok.mpr ⟨_, halike.capabilities_eq.trans
    (capabilities_of_restored hgt hrestored.of_mem_stations hcapabilities), rfl⟩⟩

namespace Service

/-- A request to read back the flow with these nodes and edges over the object it was drawn of. -/
def reconstruction (nodes edges : Json) (fs : Fields) (force : Bool) : Json :=
  .obj [("nodes", nodes), ("edges", edges), ("original", .obj fs), ("force", .bool force)]

theorem respond_compile (fs : Fields) :
    respond "POST" "/flows/compile" (some (.obj fs)) = compileBody fs := rfl

theorem respond_reconstruct {g : Graph} (h : ∀ n ∈ g.nodes, n.Passes .finite) (fs : Fields)
    (force : Bool) :
    respond "POST" "/flows/reconstruct" (some (reconstruction g.nodesJson g.edgesJson fs force)) =
      rebuildBody ⟨g, fs, force⟩ := by
  have hread : readRebuild (reconstruction g.nodesJson g.edgesJson fs force) =
      .accepted ⟨g, fs, force⟩ := by
    have hforce : Read.boolean (.bool force) = .accepted force := rfl
    simp [readRebuild, reconstruction, Read.record, Graph.ofFields_toJson h, Read.field, Fields.get?,
      List.lookup_cons, Read.object, hforce, Checked.under, Checked.map, Checked.apply]
  have hanswer : respond "POST" "/flows/reconstruct"
      (some (reconstruction g.nodesJson g.edgesJson fs force)) = ofChecked rebuildBody
        (readBody readRebuild (some (reconstruction g.nodesJson g.edgesJson fs force))) := rfl
  rw [hanswer, readBody, hread]
  rfl

theorem written_of_passes {status : Nat} {body : Json} (h : body.Passes .finite) :
    written status body = ⟨status, body⟩ :=
  if_pos h

/-- What is not written has a number that is not finite. -/
theorem written_cases (status : Nat) (body : Json) :
    written status body = ⟨status, body⟩ ∨
      ¬body.Passes .finite ∧ written status body = failed := by
  by_cases h : body.Passes .finite
  · exact Or.inl (written_of_passes h)
  · exact Or.inr ⟨h, if_neg h⟩

/-- A failure is no answer with status 200. -/
theorem of_written_eq {status : Nat} {body sent : Json} (h : written status body = ⟨200, sent⟩) :
    status = 200 ∧ sent = body := by
  rcases written_cases status body with hw | ⟨-, hw⟩
  · cases hw.symm.trans h
    exact ⟨rfl, rfl⟩
  · cases hw.symm.trans h

/-- Without withheld keys and with finite numbers only, a result is answered as it is. -/
theorem ok_of_passes {body : Json} (hclear : body.Clear) (hfinite : body.Passes .finite) :
    ok body = ⟨200, body⟩ := by
  rw [ok, Json.encoded_of_clear hclear, written_of_passes hfinite]

theorem compileBody_of_load {fs : Fields} {d : Document} {g : Graph}
    (hd : Document.ofJson (.obj fs) = .accepted d) (hload : d.load .standard = .ok g) :
    compileBody fs = ok g.toJson := by
  simp only [compileBody, hd, Checked.orFault, Checked.toExcept, bind, Except.bind, hload]
  rfl

/-- A script is compiled to the flow that it loads as, or refused for parts of it. -/
theorem compileBody_cases (fs : Fields) :
    (∃ d g, Document.ofJson (.obj fs) = .accepted d ∧ d.load .standard = .ok g) ∨
    ∃ issues, compileBody fs = detail 422 (issueList issues) ∧
      ∀ σ, fs.Passes σ → ∀ i ∈ issues, i.input.Passes σ := by
  cases hd : Document.ofJson (.obj fs) with
  | refused issues =>
    refine Or.inr ⟨issues, by rw [compileBody, hd]; rfl, fun σ hfs => ?_⟩
    have hpasses := Document.passes_ofJson _ (Json.passes_obj.mpr hfs)
    rwa [hd] at hpasses
  | accepted d =>
    obtain ⟨g, hg⟩ := d.exists_load_elim .standard
    cases hf : d.noteFault? with
    | none => exact Or.inl ⟨d, g, rfl, by rwa [hf] at hg⟩
    | some f =>
      obtain ⟨record, issues, rfl, hissues⟩ := Document.exists_of_noteFault? hf
      rw [hf] at hg
      refine Or.inr ⟨issues, ?_, fun σ hfs =>
        hissues σ (Document.passes_of_ofJson (hfs.value _) hd)⟩
      simp only [compileBody, hd, Checked.orFault, Checked.toExcept, bind, Except.bind, hg,
        Option.elim_some]
      rfl

/-- A flow with errors is not read back unless that is forced. -/
theorem rebuildBody_of_errors {g : Graph} {fs : Fields} (h : g.validate ≠ []) :
    rebuildBody ⟨g, fs, false⟩ = ⟨400, .obj [("detail", .obj
      [("message", .str "Flow has validation errors"), ("errors", errorList g.validate)])]⟩ := by
  have hempty : g.validate.isEmpty = false := by simpa using h
  have herrors : (errorList g.validate).Passes .finite := by
    refine Json.passes_arr.mpr fun v hv => ?_
    obtain ⟨e, -, rfl⟩ := List.mem_map.mp hv
    exact e.passes_toJson
  have hrefused : rebuildBody ⟨g, fs, false⟩ =
      detail 400 (.obj [("message", .str "Flow has validation errors"),
        ("errors", errorList g.validate)]) := by
    simp [rebuildBody, hempty]
  rw [hrefused, detail]
  exact written_of_passes (Json.passes_obj.mpr (.cons rfl (Json.passes_obj.mpr
    (.cons rfl (Json.passes_str _) (.cons rfl herrors .nil))) .nil))

theorem rebuildBody_of_rebuild {g : Graph} {fs : Fields} {force : Bool} {r : Document}
    (h : g.validate = [] ∨ force = true) (hr : g.rebuild (.obj fs) = .ok r) :
    rebuildBody ⟨g, fs, force⟩ =
      ok (.obj [("document", r.toJson), ("forced", .bool !g.validate.isEmpty)]) := by
  have hgo : (!g.validate.isEmpty && !force) = false := by
    rcases h with h | h <;> simp [h]
  simp [rebuildBody, hgo, hr, ofResult]

-- Beyond all floats there is infinity, which is read and cannot be written out again.
example : ((Document.pauses []).draw defaultStem).toOption.map (fun g =>
    (rebuildBody ⟨g, [("v", .float (1 / 0))], false⟩).status) = some 500 := by decide +kernel

/-- What is loaded is read back and validated as what was drawn. -/
theorem agreesWith_loaded (g : Graph) (settings : Settings) :
    g.AgreesWith (g.arrange settings).annotate :=
  g.agreesWith_annotate_layout settings.geometry settings.layoutSweeps

section

variable {d : Document} {g : Graph}

theorem passes_loaded {σ : Json.Sieve} (h : d.draw defaultStem = .ok g)
    (hd : ∀ c ∈ d.capabilities, c.Passes σ) (settings : Settings) :
    ∀ n ∈ (g.arrange settings).annotate.nodes, n.Passes σ := by
  intro m hm
  obtain ⟨n, hn, rfl⟩ := List.mem_map.mp hm
  exact (passes_of_draw h hd n hn).move _

theorem clear_loaded (h : d.draw defaultStem = .ok g)
    (hd : ∀ c ∈ d.capabilities, c.Passes .clear) (settings : Settings) :
    (g.arrange settings).annotate.toJson.Clear :=
  Graph.passes_toJson (fun n hn => (passes_loaded h hd settings n hn).dumped) fun _ _ => ⟨rfl, rfl⟩

/-- The coordinates that a flow is loaded with are finite, unless it is very large. -/
theorem finite_loaded (h : d.draw defaultStem = .ok g) (hsize : g.nodes.length ≤ 2 ^ 40) :
    (g.arrange .standard).annotate.toJson.Passes .finite := by
  refine Graph.passes_toJson (fun n _ => n.passes_dumped) fun n hn => ?_
  obtain ⟨x, y, hx, hy⟩ := Graph.exists_isWhole_layout (nodup_ids_of_draw h) hsize hn
  exact ⟨hx.isFinite, hy.isFinite⟩

end

theorem compileBody_of_draw {fs : Fields} {d : Document} {g : Graph}
    (hd : Document.ofJson (.obj fs) = .accepted d) (hg : d.draw defaultStem = .ok g)
    (hclear : ∀ c ∈ d.capabilities, c.Passes .clear) (hsize : g.nodes.length ≤ 2 ^ 40) :
    compileBody fs = ⟨200, (g.arrange .standard).annotate.toJson⟩ := by
  rw [compileBody_of_load hd (bind_eq_ok.mpr ⟨g, hg, rfl⟩)]
  exact ok_of_passes (clear_loaded hg hclear _) (finite_loaded hg hsize)

/-- A script that there may be no answer for: it has a number that is not finite, or its flow so many
nodes that their coordinates are no longer exact. -/
def Unsendable (fs : Fields) : Prop :=
  (Json.obj fs).isFinite = false ∨
    ∃ d loaded, Document.ofJson (.obj fs) = .accepted d ∧ d.load .standard = .ok loaded ∧
      2 ^ 40 < loaded.nodes.length

/-- An object is compiled or refused, or there is no answer for it. -/
theorem compileBody_status (fs : Fields) :
    (compileBody fs).status = 200 ∨ (compileBody fs).status = 422 ∨
      compileBody fs = failed ∧ Unsendable fs := by
  rcases compileBody_cases fs with ⟨d, loaded, hd, hload⟩ | ⟨issues, hrefused, hissues⟩
  · rw [compileBody_of_load hd hload]
    rcases written_cases 200 loaded.toJson.encoded with hsent | ⟨hinfinite, hfailed⟩
    · exact Or.inl (congrArg Response.status hsent)
    refine Or.inr (Or.inr ⟨hfailed, Or.inr ⟨d, loaded, hd, hload, ?_⟩⟩)
    obtain ⟨g, hg, hloaded⟩ := bind_eq_ok.mp hload
    cases hloaded
    refine Nat.lt_of_not_le fun hsize => hinfinite ?_
    rw [Graph.arrange, Graph.annotate, Graph.layout, List.length_map] at hsize
    exact (finite_loaded hg hsize).encoded
  · rw [hrefused]
    rcases written_cases 422 (.obj [("detail", issueList issues)]) with hsent | ⟨hinfinite, hfailed⟩
    · exact Or.inr (Or.inl (congrArg Response.status hsent))
    refine Or.inr (Or.inr ⟨hfailed, Or.inl (Bool.eq_false_iff.mpr fun hfinite => hinfinite ?_)⟩)
    exact Json.passes_obj.mpr
      (.cons rfl (passes_issueList (hissues _ (Json.passes_obj.mp hfinite))) .nil)

/-- The answers to a flow that is posted with the script it was drawn of: the errors of the drawn
flow, or the document that is read back of it on the spot, but for the withheld keys. There is no
answer where the document has a number that is not finite. -/
structure AnsweredAs (fs : Fields) (g : Graph) (r : Document) (nodes edges : Json) : Prop where
  refused : g.validate ≠ [] →
    respond "POST" "/flows/reconstruct" (some (reconstruction nodes edges fs false)) =
      ⟨400, .obj [("detail", .obj [("message", .str "Flow has validation errors"),
        ("errors", errorList g.validate)])]⟩
  rebuilt : r.toJson.encoded.isFinite = true → ∀ force, g.validate = [] ∨ force = true →
    respond "POST" "/flows/reconstruct" (some (reconstruction nodes edges fs force)) =
      ⟨200, .obj [("document", r.toJson.encoded), ("forced", .bool !g.validate.isEmpty)]⟩
  unsent : r.toJson.encoded.isFinite = false → ∀ force, g.validate = [] ∨ force = true →
    respond "POST" "/flows/reconstruct" (some (reconstruction nodes edges fs force)) = failed

theorem answeredAs_of_agreesWith {fs : Fields} {g loaded : Graph} {r : Document}
    (hagrees : g.AgreesWith loaded) (hnodes : ∀ n ∈ loaded.nodes, n.Passes .finite)
    (hr : g.rebuild (.obj fs) = .ok r) :
    AnsweredAs fs g r loaded.nodesJson loaded.edgesJson := by
  rw [hagrees.readAlike.rebuild_eq] at hr
  have hforced := hagrees.validate_eq
  have hrebuilt : ∀ force, loaded.validate = [] ∨ force = true →
      respond "POST" "/flows/reconstruct"
        (some (reconstruction loaded.nodesJson loaded.edgesJson fs force)) =
        written 200 (.obj [("document", r.toJson.encoded),
          ("forced", .bool !loaded.validate.isEmpty)]) := by
    intro force hforce
    rw [respond_reconstruct hnodes, rebuildBody_of_rebuild hforce hr]
    rfl
  refine ⟨fun herrors => ?_, fun hfinite force hforce => ?_, fun hinfinite force hforce => ?_⟩
  · rw [hforced] at herrors ⊢
    exact (respond_reconstruct hnodes fs false).trans (rebuildBody_of_errors herrors)
  · rw [hforced] at hforce ⊢
    refine (hrebuilt force hforce).trans (written_of_passes (Json.passes_obj.mpr ?_))
    exact .cons rfl hfinite (.cons rfl rfl .nil)
  · rw [hforced] at hforce
    refine (hrebuilt force hforce).trans (if_neg fun hsent => ?_)
    exact Bool.false_ne_true (hinfinite.symm.trans
      (Json.passes_obj.mp hsent ("document", r.toJson.encoded) List.mem_cons_self).2)

/-- A flow with finite numbers is read back from what it is written as. Every object is compiled or
refused, unless there is no answer for it; what is loaded of it is validated and read back as what is
drawn of it, and sent without the withheld keys. Where no key in its capabilities is withheld, nothing
is missing of what is sent; where their numbers are finite as well, the flow is answered as the drawn
one when it is posted back. Where no key of the object is withheld, nothing is missing there. -/
theorem transit (fs : Fields) :
    (∀ flow : Graph, (∀ n ∈ flow.nodes, n.Passes .finite) →
      Graph.ofJson .value flow.toJson = .accepted flow) ∧
      ((respond "POST" "/flows/compile" (some (.obj fs))).status = 200 ∨
        (respond "POST" "/flows/compile" (some (.obj fs))).status = 422 ∨
        respond "POST" "/flows/compile" (some (.obj fs)) = failed ∧ Unsendable fs) ∧
      ∀ body, respond "POST" "/flows/compile" (some (.obj fs)) = ⟨200, body⟩ →
        ∃ d g loaded r, Document.ofJson (.obj fs) = .accepted d ∧
          d.draw defaultStem = .ok g ∧ d.load .standard = .ok loaded ∧
          loaded.validate = g.validate ∧
          g.rebuild (.obj fs) = .ok r ∧ loaded.rebuild (.obj fs) = .ok r ∧
          body = loaded.toJson.encoded ∧
          ((fs.value "capabilities").Clear → body = loaded.toJson ∧
            ((fs.value "capabilities").isFinite = true →
              ∃ nodes edges, body = .obj [("nodes", nodes), ("edges", edges)] ∧
                AnsweredAs fs g r nodes edges)) ∧
          ((Json.obj fs).Clear → r.toJson.encoded = r.toJson) ∧
          ((Json.obj fs).isFinite = true → r.toJson.encoded.isFinite = true) := by
  rw [respond_compile]
  refine ⟨fun flow hflow => Graph.ofFields_toJson hflow .value [], compileBody_status fs,
    fun body hbody => ?_⟩
  rcases compileBody_cases fs with ⟨d, loaded, hd, hload⟩ | ⟨issues, hrefused, -⟩
  · obtain ⟨g, hg, hloaded⟩ := bind_eq_ok.mp hload
    cases hloaded
    obtain ⟨r, hr⟩ := exists_rebuild_of_draw hd hg
    have hagrees := agreesWith_loaded g .standard
    have hrebuilt : ∀ {σ : Json.Sieve}, (Json.obj fs).Passes σ → r.toJson.Passes σ := by
      intro σ h
      have hfs := Json.passes_obj.mp h
      have hnodes := passes_of_draw hg (Document.passes_of_ofJson (hfs.value _) hd)
      exact Graph.passes_of_rebuild hnodes hfs hr
    obtain ⟨-, hsent⟩ := of_written_eq ((compileBody_of_load hd hload).symm.trans hbody)
    refine ⟨d, g, _, r, hd, hg, hload, hagrees.validate_eq.symm, hr,
      (hagrees.readAlike.rebuild_eq _).symm.trans hr, hsent, fun hclear => ?_,
      fun hclear => Json.encoded_of_clear (hrebuilt hclear),
      fun hfinite => (hrebuilt hfinite).encoded⟩
    rw [Json.encoded_of_clear (clear_loaded hg (Document.passes_of_ofJson hclear hd) _)] at hsent
    refine ⟨hsent, fun hfinite => ⟨_, _, hsent, ?_⟩⟩
    have hnodes := passes_loaded hg (Document.passes_of_ofJson hfinite hd) .standard
    exact answeredAs_of_agreesWith hagrees hnodes hr
  · have hstatus := (of_written_eq (hrefused.symm.trans hbody)).1
    exact absurd hstatus (by decide)

theorem transit_sample : ∃ fs, Document.sample.toJson = .obj fs ∧ (Json.obj fs).Clear ∧
    (Json.obj fs).isFinite = true ∧
    ∃ g r nodes edges, respond "POST" "/flows/compile" (some (.obj fs)) =
      ⟨200, .obj [("nodes", nodes), ("edges", edges)]⟩ ∧ r.toJson.encoded = r.toJson ∧
      r.toJson.encoded.isFinite = true ∧ AnsweredAs fs g r nodes edges := by
  obtain ⟨fs, hfs⟩ : ∃ fs, Document.sample.toJson = .obj fs := ⟨_, rfl⟩
  have hd : Document.ofJson (.obj fs) = .accepted .sample := hfs ▸ rfl
  obtain ⟨g, hg, hsize⟩ : ∃ g, Document.sample.draw defaultStem = .ok g ∧
    g.nodes.length ≤ 2 ^ 40 := ⟨_, rfl, by decide⟩
  have hclear : (Json.obj fs).Clear := hfs ▸ rfl
  have hfinite : (Json.obj fs).isFinite = true := hfs ▸ rfl
  have hcapabilities := (Json.passes_obj.mp hclear).value "capabilities"
  have hbody := compileBody_of_draw hd hg (Document.passes_of_ofJson hcapabilities hd) hsize
  obtain ⟨-, g, loaded, r, -, -, -, -, -, -, -, hposted, hwhole, hwritten⟩ :=
    (transit fs).2.2 _ hbody
  obtain ⟨-, hanswered⟩ := hposted hcapabilities
  obtain ⟨nodes, edges, hsent, hanswered⟩ :=
    hanswered ((Json.passes_obj.mp hfinite).value "capabilities")
  exact ⟨fs, hfs, hclear, hfinite, g, r, nodes, edges, hsent ▸ hbody, hwhole hclear,
    hwritten hfinite, hanswered⟩

/-- A script with a key of its own that is withheld. -/
def boxed : Document where
  capabilities := [{
    name := some "main", description := none, parameters := none, trigger := none, extra := []
    actions := [] }]
  extra := [("_sandbox", .bool true)]

/-- The key is gone from the document that is answered. -/
theorem withheld_boxed : ∃ fs g r nodes edges document, boxed.toJson = .obj fs ∧
    Document.ofJson (.obj fs) = .accepted boxed ∧ boxed.draw defaultStem = .ok g ∧
      g.validate = [] ∧ g.rebuild (.obj fs) = .ok r ∧
      respond "POST" "/flows/compile" (some (.obj fs)) =
        ⟨200, .obj [("nodes", nodes), ("edges", edges)]⟩ ∧
      respond "POST" "/flows/reconstruct" (some (reconstruction nodes edges fs false)) =
        ⟨200, .obj [("document", document), ("forced", .bool false)]⟩ ∧
      document ≠ r.toJson := by
  obtain ⟨fs, hfs⟩ : ∃ fs, boxed.toJson = .obj fs := ⟨_, rfl⟩
  have hd : Document.ofJson (.obj fs) = .accepted boxed := hfs ▸ rfl
  obtain ⟨g, hg, hvalid, hsize⟩ : ∃ g, boxed.draw defaultStem = .ok g ∧ g.validate = [] ∧
    g.nodes.length ≤ 2 ^ 40 := ⟨_, rfl, rfl, by decide⟩
  obtain ⟨r, hr⟩ := exists_rebuild_of_draw hd hg
  have hcapabilities : ∀ σ, ∀ c ∈ boxed.capabilities, c.Passes σ := by
    intro σ c hc
    obtain rfl := List.mem_singleton.mp hc
    exact ⟨.cons rfl (Json.passes_str "main") .nil, trivial⟩
  have hfinite : (Json.obj fs).isFinite = true := hfs ▸ rfl
  have hdocument : r.toJson.encoded.Passes .finite :=
    (Graph.passes_of_rebuild (passes_of_draw hg (hcapabilities _))
      (Json.passes_obj.mp hfinite) hr).encoded
  have hanswered := answeredAs_of_agreesWith (agreesWith_loaded g .standard)
    (passes_loaded hg (hcapabilities .finite) .standard) hr
  have hanswer := hanswered.rebuilt hdocument false (Or.inl hvalid)
  rw [hvalid] at hanswer
  refine ⟨fs, g, r, _, _, r.toJson.encoded, hfs, hd, hg, hvalid, hr,
    compileBody_of_draw hd hg (hcapabilities _) hsize, hanswer, ?_⟩
  -- The fields that are read back beside the capabilities are those of the script.
  obtain ⟨cs, -, hcs⟩ := bind_eq_ok.mp hr
  cases hcs
  cases hfs
  intro h
  injection h with hfields
  injection hfields with hfield
  have hkey : "capabilities" = "_sandbox" := congrArg Prod.fst hfield
  exact absurd hkey (by decide)

end Service

end ScriptFlow
