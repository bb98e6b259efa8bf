import BoostedTrees.Engine.Handle
import BoostedTrees.Learner.Prediction

/-!
# Engines

An engine keeps models and names each by a handle. It makes a model, releases it, and
answers requests about it. An engine may be anything that answers: whether a handle
is known, and whether an answer can be given, is for it to decide.

A call is what can be seen of a use of an engine. Calls have names, by which they are
recorded.
-/

namespace BoostedTrees

/-- What is asked of the model behind a handle. -/
inductive Request where
  | setParameter (key value : String)
  | getAttribute (key : String)
  /-- Without a value the attribute is removed. -/
  | setAttribute (key : String) (value? : Option String)
  | attributeNames
  | setFeatureInfo (field : String) (values : List String)
  | featureInfo (field : String)
  | featureCount
  | roundCount
  | update (iteration : Int32) (m : Matrix)
  | boost (iteration : Int32) (m : Matrix) (g : Gradient)
  | evaluate (iteration : Int32) (ms : List Matrix) (names : List String)
  | predict (m : Matrix) (mask : Int32) (limit : UInt32)
  | predictDense (rows : DenseRows) (first last : UInt32) (code : Int32)
      (baseMargin : Option (Array Single))
  | loadFile (path : String)
  | saveFile (path : String)
  | load (bytes : List UInt8)
  | save (format : String)
  | dump (mapPath? : Option String) (statistics : Bool) (format : String)
  | dumpNamed (names : List String) (statistics : Bool) (format : String)
  | config
  | loadConfig (text : String)

/-- What a request is answered with. -/
@[reducible] def Request.Reply : Request → Type
  | setParameter .. => Unit
  | getAttribute _ => Option String
  | setAttribute .. => Unit
  | attributeNames => List String
  | setFeatureInfo .. => Unit
  | featureInfo _ => List String
  | featureCount => UInt64
  | roundCount => UInt32
  | update .. => Unit
  | boost .. => Unit
  | evaluate .. => String
  | predict .. => List Single
  | predictDense .. => List Single
  | loadFile _ => Unit
  | saveFile _ => Unit
  | load _ => Unit
  | save _ => List UInt8
  | dump .. => List String
  | dumpNamed .. => List String
  | config => String
  | loadConfig _ => Unit

/-- A use of an engine with the given state, which it may change also when it fails. -/
abbrev EngineM (σ : Type) := ExceptT EngineError (StateM σ)

/-- Something that keeps models by handle, with a state of its own. -/
structure Engine (σ : Type) where
  /-- Makes a model that remembers sums for the given matrices. -/
  create : (cache : List Matrix) → EngineM σ Handle
  /-- Releases a model; its handle is not valid any more. -/
  free : Handle → EngineM σ Unit
  answer : Handle → (r : Request) → EngineM σ r.Reply

/-- A use of an engine, as it is recorded. -/
inductive Call where
  | create (cache : List Matrix)
  | free (handle : Handle)
  | request (handle : Handle) (r : Request)

namespace Request

def name : Request → String
  | setParameter .. => "booster_set_param"
  | getAttribute _ => "booster_get_attr"
  | setAttribute .. => "booster_set_attr"
  | attributeNames => "booster_get_attr_names"
  | setFeatureInfo .. => "booster_set_str_feature_info"
  | featureInfo _ => "booster_get_str_feature_info"
  | featureCount => "booster_get_num_feature"
  | roundCount => "booster_boosted_rounds"
  | update .. => "booster_update_one_iter"
  | boost .. => "booster_train_one_iter"
  | evaluate .. => "booster_eval_one_iter"
  | predict .. => "booster_predict"
  | predictDense .. => "booster_predict_from_dense"
  | loadFile _ => "booster_load_model"
  | saveFile _ => "booster_save_model"
  | load _ => "booster_load_model_from_buffer"
  | save _ => "booster_save_model_to_buffer"
  | dump .. => "booster_dump_model"
  | dumpNamed .. => "booster_dump_model_with_features"
  | config => "booster_save_json_config"
  | loadConfig _ => "booster_load_json_config"

end Request

namespace Call

def name : Call → String
  | create _ => "booster_create"
  | free _ => "booster_free"
  | request _ r => r.name

/-- The handle that a call is about. -/
def handle? : Call → Option Handle
  | create _ => none
  | free h => some h
  | request h _ => some h

end Call

end BoostedTrees
