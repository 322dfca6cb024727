import Daloy.App.Extensions

/-! # Plugin registration

`App.register` and the parts of `App.group` and `applyExtensions` that it runs, of `src/app.ts`.

* `register`: what a registration leaves behind, also when it throws.
* `install_hooks`: the hook layers that it adds are those of the sorted extensions.
-/

namespace Daloy.App.Registration
set_option autoImplicit false

open Daloy.Json Daloy.Unicode Daloy.App.Extensions Relation

abbrev Hooks (H : Type) := List (Event × H)

/-- What `register` reads of an `App`, and what a child shares with it: `installedPlugins`, and in
`shared` the router, the routes and the listeners. -/
structure AppState (H S : Type) where
  isProduction : Bool
  secureDefaults : Option Bool
  path : JsString
  groupHooks : List (Hooks H)
  installedPlugins : List JsString
  shared : S
  deriving DecidableEq

/-- How a plugin's function comes back: with a promise it is installed later. -/
inductive Completion
  | done | promised
  deriving DecidableEq, Repr

structure Plugin (E H S : Type) where
  name : Option JsString
  seed : Option JsString
  stateful : Option Bool
  dependencies : Option (List JsString)
  extensions : Option (List (PluginExtension H))
  register : Option (AppState H S → AppState H S × Except E Completion)

structure Config (H : Type) where
  path : Option JsString
  hooks : Option (Hooks H)

structure PluginInstalledEvent where
  name : Option JsString
  path : JsString

/-- What is not spelled out: the check of a configuration's hooks, and the listeners. -/
structure Environment (E H S : Type) where
  assertSecureHookConfig : Hooks H → Except E Unit
  firePluginInstalled : PluginInstalledEvent → AppState H S → AppState H S
  toLowerCase : JsString → JsString

inductive RegisterError (E : Type)
  | anonymousStateful
  | missingDependency (name dependency : JsString)
  | alreadyRegistered (key : JsString)
  | extensions (error : ExtensionError)
  | thrown (error : E)
  deriving DecidableEq, Repr

/-- The texts of the errors that `register` and the sort make themselves. -/
def RegisterError.message {E : Type} : RegisterError E → Option JsString
  | .anonymousStateful => some <|
    js "register(): anonymous stateful plugin refused in production. " ++
      js "Declare \x7b name \x7d (and optional \x7b seed \x7d) so the plugin can be deduplicated."
  | .missingDependency name dependency => some <|
    js "register(): plugin " ++ quote name ++ js " declares dependency on \"" ++ dependency ++
      js "\" but no plugin with that name has been registered yet."
  | .alreadyRegistered key => some <| js "Plugin \"" ++ key ++ js "\" already registered"
  | .extensions error => some error.message
  | .thrown _ => none

variable {E H S : Type}

def joinPath (a b : JsString) : JsString :=
  let left := a.rdropWhile (· = 0x2f)
  let right := if js "/" <+: b then b else js "/" ++ b
  if left ++ right = [] then js "/" else left ++ right

/-! ## Registration -/

/-- `name` where it is there and not empty. -/
def Plugin.givenName (plugin : Plugin E H S) : Option JsString := plugin.name.filter (· ≠ [])

def Plugin.dedupKey (plugin : Plugin E H S) : Option JsString :=
  plugin.givenName.map fun name => match plugin.seed.filter (· ≠ []) with
    | some seed => name ++ js "#" ++ seed
    | none => name

def applyExtensions (ordered : List (PluginExtension H)) (app : AppState H S) : AppState H S :=
  { app with groupHooks := app.groupHooks ++ ordered.map fun ext => [(ext.event, ext.handler)] }

/-- `group`: the callback gets a child with its own hook chain, and what it shares is kept. -/
def group (env : Environment E H S) (app : AppState H S) (config : Config H)
    (callback : AppState H S → AppState H S × Except E Unit) : AppState H S × Except E Unit :=
  match config.hooks.elim (.ok ()) env.assertSecureHookConfig with
  | .error e => (app, .error e)
  | .ok () =>
    let child := { app with
      path := joinPath app.path (config.path.getD (js "/"))
      groupHooks := app.groupHooks ++ config.hooks.toList }
    let (child, result) := callback child
    ({ app with installedPlugins := child.installedPlugins, shared := child.shared }, result)

def runPlugin (env : Environment E H S) (plugin : Plugin E H S) (event : PluginInstalledEvent)
    (child : AppState H S) : AppState H S × Except E Unit :=
  match (plugin.register.getD fun child => (child, .ok .done)) child with
  | (child, .error e) => (child, .error e)
  | (child, .ok .promised) => (child, .ok ())
  | (child, .ok .done) => (env.firePluginInstalled event child, .ok ())

/-- The last part of `register`: the child app. -/
def mount (env : Environment E H S) (plugin : Plugin E H S) (config : Config H)
    (app : AppState H S) : AppState H S × Except (RegisterError E) Unit :=
  let event := ⟨plugin.name, joinPath app.path (config.path.getD (js "/"))⟩
  let (app, result) := group env app config (runPlugin env plugin event)
  (app, result.mapError .thrown)

/-- What `register` does once the plugin's name is recorded. -/
def install (env : Environment E H S) (plugin : Plugin E H S) (config : Config H)
    (app : AppState H S) : AppState H S × Except (RegisterError E) Unit :=
  match plugin.extensions.getD [] with
  | [] => mount env plugin config app
  | ext :: exts => match topoSortExtensions env.toLowerCase (ext :: exts) with
    | .error e => (app, .error (.extensions e))
    | .ok ordered => mount env plugin config (applyExtensions ordered app)

def register (env : Environment E H S) (app : AppState H S) (plugin : Plugin E H S)
    (config : Config H) : AppState H S × Except (RegisterError E) Unit :=
  if plugin.stateful.getD false ∧ plugin.givenName = none ∧ app.isProduction ∧
      app.secureDefaults ≠ some false then
    (app, .error .anonymousStateful)
  else match (plugin.dependencies.getD []).find? (· ∉ app.installedPlugins) with
    | some dependency =>
      (app, .error (.missingDependency (plugin.name.getD (js "<anonymous>")) dependency))
    | none => match plugin.dedupKey with
      | none => install env plugin config app
      | some key =>
        if key ∈ app.installedPlugins then (app, .error (.alreadyRegistered key))
        else install env plugin config
          { app with installedPlugins := app.installedPlugins ++ [key] }

/-- An error that `register` raises before it records anything. -/
def RegisterError.IsRefusal : RegisterError E → Prop
  | .anonymousStateful | .missingDependency _ _ | .alreadyRegistered _ => True
  | .extensions _ | .thrown _ => False

/-! ## What a registration leaves behind -/

theorem group_groupHooks (env : Environment E H S) (app : AppState H S) (config : Config H)
    (callback : AppState H S → AppState H S × Except E Unit) :
    (group env app config callback).1.groupHooks = app.groupHooks := by
  unfold group
  cases config.hooks.elim (.ok ()) env.assertSecureHookConfig <;> rfl

theorem mount_groupHooks (env : Environment E H S) (plugin : Plugin E H S) (config : Config H)
    (app : AppState H S) : (mount env plugin config app).1.groupHooks = app.groupHooks :=
  group_groupHooks env app config
    (runPlugin env plugin ⟨plugin.name, joinPath app.path (config.path.getD (js "/"))⟩)

theorem mount_error {env : Environment E H S} {plugin : Plugin E H S} {config : Config H}
    {app : AppState H S} {e : RegisterError E} (h : (mount env plugin config app).2 = .error e) :
    ∃ error, e = .thrown error := by
  unfold mount at h
  cases hresult : (group env app config (runPlugin env plugin
      ⟨plugin.name, joinPath app.path (config.path.getD (js "/"))⟩)).2 with
  | error error =>
    refine ⟨error, ?_⟩
    simpa [hresult, Except.mapError, eq_comm] using h
  | ok u => simp [hresult, Except.mapError] at h

theorem install_hooks (env : Environment E H S) (plugin : Plugin E H S) (config : Config H)
    (app : AppState H S) :
    (∃ e, install env plugin config app = (app, .error (.extensions e))) ∨
    (∃ ordered, topoSortExtensions env.toLowerCase (plugin.extensions.getD []) = .ok ordered ∧
      install env plugin config app = mount env plugin config (applyExtensions ordered app)) := by
  unfold install
  cases hexts : plugin.extensions.getD [] with
  | nil => exact .inr ⟨[], rfl, by simp [applyExtensions]⟩
  | cons ext exts =>
    cases hsort : topoSortExtensions env.toLowerCase (ext :: exts) with
    | error e => exact .inl ⟨e, by simp only [hsort]⟩
    | ok ordered => exact .inr ⟨ordered, rfl, by simp only [hsort]⟩

theorem register_cases (env : Environment E H S) (app : AppState H S) (plugin : Plugin E H S)
    (config : Config H) :
    (∃ e, e.IsRefusal ∧ register env app plugin config = (app, .error e)) ∨
    ∃ names, register env app plugin config =
      install env plugin config { app with installedPlugins := names } := by
  unfold register
  split
  · exact .inl ⟨.anonymousStateful, trivial, rfl⟩
  · split
    · next dependency _ => exact .inl ⟨.missingDependency _ dependency, trivial, rfl⟩
    · split
      · exact .inr ⟨app.installedPlugins, rfl⟩
      · next key _ =>
        split
        · exact .inl ⟨.alreadyRegistered key, trivial, rfl⟩
        · exact .inr ⟨_, rfl⟩

theorem register_refused {env : Environment E H S} {app : AppState H S} {plugin : Plugin E H S}
    {config : Config H} {e : RegisterError E} (he : e.IsRefusal)
    (h : (register env app plugin config).2 = .error e) :
    (register env app plugin config).1 = app := by
  cases register_cases env app plugin config with
  | inl hrefused =>
    obtain ⟨_, _, hregister⟩ := hrefused
    rw [hregister]
  | inr hinstalled =>
    obtain ⟨names, hregister⟩ := hinstalled
    rw [hregister] at h
    cases install_hooks env plugin config { app with installedPlugins := names } with
    | inl hfail =>
      obtain ⟨_, hinstall⟩ := hfail
      rw [hinstall] at h
      cases h
      exact he.elim
    | inr hmount =>
      obtain ⟨_, _, hinstall⟩ := hmount
      rw [hinstall] at h
      obtain ⟨_, rfl⟩ := mount_error h
      exact he.elim

theorem register_extensions {env : Environment E H S} {app : AppState H S} {plugin : Plugin E H S}
    {config : Config H} {e : ExtensionError}
    (h : (register env app plugin config).2 = .error (.extensions e)) :
    ∃ names, (register env app plugin config).1 = { app with installedPlugins := names } := by
  cases register_cases env app plugin config with
  | inl hrefused =>
    obtain ⟨_, _, hregister⟩ := hrefused
    exact ⟨app.installedPlugins, by rw [hregister]⟩
  | inr hinstalled =>
    obtain ⟨names, hregister⟩ := hinstalled
    rw [hregister] at h
    refine ⟨names, ?_⟩
    cases install_hooks env plugin config { app with installedPlugins := names } with
    | inl hfail =>
      obtain ⟨_, hinstall⟩ := hfail
      rw [hregister, hinstall]
    | inr hmount =>
      obtain ⟨_, _, hinstall⟩ := hmount
      rw [hinstall] at h
      obtain ⟨_, herror⟩ := mount_error h
      cases herror

theorem register_groupHooks (env : Environment E H S) (app : AppState H S) (plugin : Plugin E H S)
    (config : Config H) :
    (register env app plugin config).1.groupHooks = app.groupHooks ∨
    ∃ ordered, topoSortExtensions env.toLowerCase (plugin.extensions.getD []) = .ok ordered ∧
      (register env app plugin config).1.groupHooks =
        app.groupHooks ++ ordered.map fun ext => [(ext.event, ext.handler)] := by
  cases register_cases env app plugin config with
  | inl hrefused =>
    obtain ⟨_, _, hregister⟩ := hrefused
    exact .inl (by rw [hregister])
  | inr hinstalled =>
    obtain ⟨names, hregister⟩ := hinstalled
    rw [hregister]
    cases install_hooks env plugin config { app with installedPlugins := names } with
    | inl hfail =>
      obtain ⟨_, hinstall⟩ := hfail
      exact .inl (by rw [hinstall])
    | inr hmount =>
      obtain ⟨ordered, hsort, hinstall⟩ := hmount
      refine .inr ⟨ordered, hsort, ?_⟩
      rw [hinstall, mount_groupHooks]
      rfl

/-- **A refused registration changes nothing, refused extensions add no hook layer, and extensions
come in an order that keeps every declaration.** -/
theorem registration_ordered (env : Environment E H S) (app : AppState H S)
    (plugin : Plugin E H S) (config : Config H) :
    (∀ e, e.IsRefusal → (register env app plugin config).2 = .error e →
      (register env app plugin config).1 = app) ∧
    (∀ e, (register env app plugin config).2 = .error (.extensions e) →
      (register env app plugin config).1.groupHooks = app.groupHooks ∧
      (register env app plugin config).1.shared = app.shared) ∧
    (plugin.extensions.getD [] = [] →
      (register env app plugin config).1.groupHooks = app.groupHooks) ∧
    (∀ exts out : List (PluginExtension H), topoSortExtensions env.toLowerCase exts = .ok out →
      out.Perm exts ∧ ∀ a b, Constraint exts a b → [a, b].Sublist out) ∧
    (∀ exts : List (PluginExtension H),
      (∃ e, topoSortExtensions env.toLowerCase exts = .error e) ↔
        Repeats exts ∨ Cyclic exts ∨ Conflicting env.toLowerCase exts) := by
  refine ⟨fun e he h => register_refused he h, ?_, ?_, ?_, ?_⟩
  · intro e h
    obtain ⟨names, hstate⟩ := register_extensions h
    rw [hstate]
    exact ⟨rfl, rfl⟩
  · intro hnone
    cases register_groupHooks env app plugin config with
    | inl hsame => exact hsame
    | inr hadded =>
      obtain ⟨ordered, hsort, hhooks⟩ := hadded
      rw [hnone] at hsort
      have hperm := (topoSortExtensions_ok env.toLowerCase hsort).1
      rw [hhooks, hperm.eq_nil, List.map_nil, List.append_nil]
  · intro exts out h
    exact topoSortExtensions_ok env.toLowerCase h
  · intro exts
    exact topoSortExtensions_refused env.toLowerCase exts

/-! ## Where the name stays, and where a chain of declarations is not enough -/

def bareExtension (name : JsString) (before responseHeaders : List JsString) :
    PluginExtension Unit :=
  ⟨name, .onSend, (), some before, none, some responseHeaders⟩

def barePlugin (name : JsString) (extensions : List (PluginExtension Unit)) :
    Plugin Unit Unit Unit :=
  ⟨some name, none, none, none, some extensions, none⟩

def bareEnvironment : Environment Unit Unit Unit := ⟨fun _ => .ok (), fun _ app => app, id⟩

/-- The name of a plugin with a cycle stays recorded, so that the corrected plugin is a duplicate,
and two extensions that a third one stands between conflict. -/
theorem register_after_cycle :
    let app : AppState Unit Unit := ⟨false, none, js "/", [], [], ()⟩
    let cyclic := barePlugin (js "p") [bareExtension (js "a") [js "a"] []]
    let (after, result) := register bareEnvironment app cyclic ⟨none, none⟩
    result = .error (.extensions (.cycle [js "a"])) ∧ after.installedPlugins = [js "p"] ∧
    (register bareEnvironment after (barePlugin (js "p") []) ⟨none, none⟩).2 =
      .error (.alreadyRegistered (js "p")) ∧
    topoSortExtensions id [bareExtension (js "a") [js "b"] [js "h"],
      bareExtension (js "b") [js "c"] [], bareExtension (js "c") [] [js "h"]] =
      .error (.headerConflict (js "a") (js "c") [js "h"]) := by
  decide

end Daloy.App.Registration
