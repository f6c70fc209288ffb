import Notebook.Text

/-!
# The helper file of a program

Every program is compiled with a file that stores values and brings them back.  It is given
here line by line.
-/

namespace Notebook

/-- The lines of the helper file. -/
def helperLines : List String :=
  ["// Code generated by gocell. DO NOT EDIT.",
   "",
   "package main",
   "",
   "import (",
   "\t\"bytes\"",
   "\t\"encoding/gob\"",
   "\t\"errors\"",
   "\t\"fmt\"",
   "\t\"os\"",
   "\t\"path/filepath\"",
   "\t\"reflect\"",
   "\t\"regexp\"",
   "\t\"strings\"",
   "\t\"sync\"",
   ")",
   "",
   "var (",
   "\tSessionID string",
   "\tStoreDir  string",
   ")",
   "",
   "var (",
   "\tErrMissing          = errors.New(\"gocell: no stored value\")",
   "\tErrTypeMismatch     = errors.New(\"gocell: stored type differs\")",
   "\tErrUnregisteredFunc = errors.New(\"gocell: function value has no recorded source\")",
   "\tErrUnregisteredType = errors.New(\"gocell: type is not registered\")",
   ")",
   "",
   "var _mainQualifier = regexp.MustCompile(`\\bmain\\.`)",
   "",
   "type _decoder func(path string) (any, error)",
   "",
   "var (",
   "\t_decodersMu sync.Mutex",
   "\t_decoders   = map[string]_decoder\x7b\x7d",
   ")",
   "",
   "func init() \x7b",
   "\t_RegisterType[int]()",
   "\t_RegisterType[int64]()",
   "\t_RegisterType[float64]()",
   "\t_RegisterType[string]()",
   "\t_RegisterType[bool]()",
   "\t_RegisterType[[]byte]()",
   "\t_RegisterType[[]int]()",
   "\t_RegisterType[[]float64]()",
   "\t_RegisterType[[]string]()",
   "\t_RegisterType[[]any]()",
   "\t_RegisterType[map[string]int]()",
   "\t_RegisterType[map[string]string]()",
   "\t_RegisterType[map[string]any]()",
   "\x7d",
   "",
   "func _typeTag(t reflect.Type) string \x7b",
   "\treturn _mainQualifier.ReplaceAllString(t.String(), \"\")",
   "\x7d",
   "",
   "func _staticType[T any]() reflect.Type \x7b",
   "\tvar zero T",
   "\treturn reflect.TypeOf(&zero).Elem()",
   "\x7d",
   "",
   "func _paths(name string) (string, string) \x7b",
   "\tblob := filepath.Join(StoreDir, name)",
   "\treturn blob, blob + \".type\"",
   "\x7d",
   "",
   "// _gobRegister makes a concrete type known to gob so it can travel inside an interface.",
   "func _gobRegister(v any) \x7b",
   "\tdefer func() \x7b _ = recover() \x7d()",
   "\tgob.Register(v)",
   "\x7d",
   "",
   "// _RegisterType adds T to the decoder registry used by _Load.",
   "func _RegisterType[T any]() \x7b",
   "\trt := _staticType[T]()",
   "\t_decodersMu.Lock()",
   "\tdefer _decodersMu.Unlock()",
   "\t_decoders[_typeTag(rt)] = func(path string) (any, error) \x7b",
   "\t\treturn _decodeFile[T](path)",
   "\t\x7d",
   "\tif rt.Kind() != reflect.Interface && rt.Kind() != reflect.Func \x7b",
   "\t\tvar zero T",
   "\t\t_gobRegister(zero)",
   "\t\x7d",
   "\x7d",
   "",
   "// _Serialize stores value under name together with its static type tag.",
   "// Function values only record the tag; their source is replayed instead.",
   "func _Serialize[T any](name string, value T) error \x7b",
   "\tif err := os.MkdirAll(StoreDir, 0o755); err != nil \x7b",
   "\t\treturn err",
   "\t\x7d",
   "\tblob, tagPath := _paths(name)",
   "\trt := _staticType[T]()",
   "\ttag := _typeTag(rt)",
   "",
   "\tif rt.Kind() == reflect.Func \x7b",
   "\t\tif err := os.WriteFile(blob, nil, 0o644); err != nil \x7b",
   "\t\t\treturn err",
   "\t\t\x7d",
   "\t\treturn os.WriteFile(tagPath, []byte(tag), 0o644)",
   "\t\x7d",
   "\tif rt.Kind() == reflect.Interface \x7b",
   "\t\tif v := reflect.ValueOf(&value).Elem(); !v.IsNil() \x7b",
   "\t\t\t_gobRegister(v.Elem().Interface())",
   "\t\t\x7d",
   "\t\x7d",
   "",
   "\tvar buf bytes.Buffer",
   "\tif err := gob.NewEncoder(&buf).Encode(&value); err != nil \x7b",
   "\t\t_ = os.Remove(blob)",
   "\t\t_ = os.Remove(tagPath)",
   "\t\treturn fmt.Errorf(\"encode %s: %w\", name, err)",
   "\t\x7d",
   "\tif err := os.WriteFile(blob, buf.Bytes(), 0o644); err != nil \x7b",
   "\t\treturn err",
   "\t\x7d",
   "\treturn os.WriteFile(tagPath, []byte(tag), 0o644)",
   "\x7d",
   "",
   "// _Deserialize loads the value stored under name as a T.",
   "func _Deserialize[T any](name string) (T, error) \x7b",
   "\tvar zero T",
   "\tblob, tagPath := _paths(name)",
   "\traw, err := os.ReadFile(tagPath)",
   "\tif err != nil \x7b",
   "\t\tif errors.Is(err, os.ErrNotExist) \x7b",
   "\t\t\treturn zero, fmt.Errorf(\"%w: %s\", ErrMissing, name)",
   "\t\t\x7d",
   "\t\treturn zero, err",
   "\t\x7d",
   "\trt := _staticType[T]()",
   "\twant := _typeTag(rt)",
   "\tgot := strings.TrimSpace(string(raw))",
   "\tif got != want \x7b",
   "\t\treturn zero, fmt.Errorf(\"%w: %s is %s, not %s\", ErrTypeMismatch, name, got, want)",
   "\t\x7d",
   "\tif rt.Kind() == reflect.Func \x7b",
   "\t\treturn zero, fmt.Errorf(\"%w: %s\", ErrUnregisteredFunc, name)",
   "\t\x7d",
   "\treturn _decodeFile[T](blob)",
   "\x7d",
   "",
   "func _decodeFile[T any](path string) (T, error) \x7b",
   "\tvar result T",
   "\tf, err := os.Open(path)",
   "\tif err != nil \x7b",
   "\t\tif errors.Is(err, os.ErrNotExist) \x7b",
   "\t\t\treturn result, fmt.Errorf(\"%w: %s\", ErrMissing, filepath.Base(path))",
   "\t\t\x7d",
   "\t\treturn result, err",
   "\t\x7d",
   "\tdefer f.Close()",
   "\tif err := gob.NewDecoder(f).Decode(&result); err != nil \x7b",
   "\t\treturn result, fmt.Errorf(\"decode %s: %w\", filepath.Base(path), err)",
   "\t\x7d",
   "\treturn result, nil",
   "\x7d",
   "",
   "// _Load decodes a stored value through the registry, by its recorded tag.",
   "func _Load(name string) (any, error) \x7b",
   "\tblob, tagPath := _paths(name)",
   "\traw, err := os.ReadFile(tagPath)",
   "\tif err != nil \x7b",
   "\t\tif errors.Is(err, os.ErrNotExist) \x7b",
   "\t\t\treturn nil, fmt.Errorf(\"%w: %s\", ErrMissing, name)",
   "\t\t\x7d",
   "\t\treturn nil, err",
   "\t\x7d",
   "\ttag := strings.TrimSpace(string(raw))",
   "\tif strings.HasPrefix(tag, \"func(\") \x7b",
   "\t\treturn nil, fmt.Errorf(\"%w: %s\", ErrUnregisteredFunc, name)",
   "\t\x7d",
   "\t_decodersMu.Lock()",
   "\tdecode, ok := _decoders[tag]",
   "\t_decodersMu.Unlock()",
   "\tif !ok \x7b",
   "\t\treturn nil, fmt.Errorf(\"%w: %s\", ErrUnregisteredType, tag)",
   "\t\x7d",
   "\treturn decode(blob)",
   "\x7d"]

/-- The text of the helper file. -/
def helperText : Text :=
  helperLines.flatMap fun line => line.toList ++ ['\n']

end Notebook
