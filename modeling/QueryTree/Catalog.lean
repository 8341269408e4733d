import QueryTree.Catalog.Entry

/-!
# The catalog

All builders by category, in the order in which they are documented. Every tag belongs to one entry.
-/

namespace QueryTree.Catalog

def basicEntries : List Entry := [
  ⟨.basic, "ref_", "ref", "ref_(collection, id)", false,
    some ⟨"ref", .operation .value [.required "id"]⟩⟩,
  ⟨.basic, "ref_path", "@ref", "ref_path(path)", false, none⟩,
  ⟨.basic, "bytes", "@bytes", "bytes(data)", false, none⟩,
  ⟨.basic, "timestamp_literal", "@ts", "timestamp_literal(iso)", false, none⟩,
  ⟨.basic, "date_literal", "@date", "date_literal(iso)", false, none⟩,
  ⟨.basic, "abort", "abort", "abort(message)", false, some ⟨"abort", .unary⟩⟩,
  ⟨.basic, "at", "at", "at(timestamp, expr)", false,
    some ⟨"at", .operation .value [.required "expr"]⟩⟩,
  ⟨.basic, "let_", "let", "let_(bindings, body)", false, some ⟨"let", .letIn⟩⟩,
  ⟨.basic, "var", "var", "var(name)", false, none⟩,
  ⟨.basic, "if_", "if", "if_(condition, then, otherwise)", false,
    some ⟨"if", .operation .value [.required "then", .required "else"]⟩⟩,
  ⟨.basic, "do_", "do", "do_(exprs...)", true, some ⟨"do", .variadic⟩⟩,
  ⟨.basic, "object", "object", "object(fields)", false, some ⟨"object", .object⟩⟩,
  ⟨.basic, "lambda", "lambda", "lambda(vars, body) | lambda_fn(f)", false,
    some ⟨"lambda", .lambda⟩⟩,
  ⟨.basic, "call", "call", "call(function, arguments...)", false, some ⟨"call", .call⟩⟩,
  ⟨.basic, "query", "query", "query(lambda)", false, some ⟨"query", .operation .lambda []⟩⟩]

def collectionsEntries : List Entry := [
  ⟨.collections, "map", "map", "map(collection, lambda)", false, some ⟨"map", .traversal⟩⟩,
  ⟨.collections, "foreach", "foreach", "foreach(collection, lambda)", false,
    some ⟨"foreach", .traversal⟩⟩,
  ⟨.collections, "filter", "filter", "filter(collection, lambda)", false,
    some ⟨"filter", .traversal⟩⟩,
  ⟨.collections, "take", "take", "take(number, collection)", false,
    some ⟨"take", .operation .value [.required "collection"]⟩⟩,
  ⟨.collections, "drop", "drop", "drop(number, collection)", false,
    some ⟨"drop", .operation .value [.required "collection"]⟩⟩,
  ⟨.collections, "prepend", "prepend", "prepend(elements, collection)", false,
    some ⟨"prepend", .operation .value [.required "collection"]⟩⟩,
  ⟨.collections, "append", "append", "append(elements, collection)", false,
    some ⟨"append", .operation .value [.required "collection"]⟩⟩,
  ⟨.collections, "is_empty", "is_empty", "is_empty(collection)", false,
    some ⟨"is_empty", .unary⟩⟩,
  ⟨.collections, "is_nonempty", "is_nonempty", "is_nonempty(collection)", false,
    some ⟨"is_nonempty", .unary⟩⟩,
  ⟨.collections, "reverse", "reverse", "reverse(source)", false, some ⟨"reverse", .unary⟩⟩]

def typesEntries : List Entry := [
  ⟨.types, "is_number", "is_number", "is_number(value)", false, some ⟨"is_number", .unary⟩⟩,
  ⟨.types, "is_double", "is_double", "is_double(value)", false, some ⟨"is_double", .unary⟩⟩,
  ⟨.types, "is_integer", "is_integer", "is_integer(value)", false, some ⟨"is_integer", .unary⟩⟩,
  ⟨.types, "is_boolean", "is_boolean", "is_boolean(value)", false, some ⟨"is_boolean", .unary⟩⟩,
  ⟨.types, "is_null", "is_null", "is_null(value)", false, some ⟨"is_null", .unary⟩⟩,
  ⟨.types, "is_bytes", "is_bytes", "is_bytes(value)", false, some ⟨"is_bytes", .unary⟩⟩,
  ⟨.types, "is_timestamp", "is_timestamp", "is_timestamp(value)", false,
    some ⟨"is_timestamp", .unary⟩⟩,
  ⟨.types, "is_date", "is_date", "is_date(value)", false, some ⟨"is_date", .unary⟩⟩,
  ⟨.types, "is_string", "is_string", "is_string(value)", false, some ⟨"is_string", .unary⟩⟩,
  ⟨.types, "is_array", "is_array", "is_array(value)", false, some ⟨"is_array", .unary⟩⟩,
  ⟨.types, "is_object", "is_object", "is_object(value)", false, some ⟨"is_object", .unary⟩⟩,
  ⟨.types, "is_ref", "is_ref", "is_ref(value)", false, some ⟨"is_ref", .unary⟩⟩,
  ⟨.types, "is_set", "is_set", "is_set(value)", false, some ⟨"is_set", .unary⟩⟩,
  ⟨.types, "is_doc", "is_doc", "is_doc(value)", false, some ⟨"is_doc", .unary⟩⟩,
  ⟨.types, "is_lambda", "is_lambda", "is_lambda(value)", false, some ⟨"is_lambda", .unary⟩⟩,
  ⟨.types, "is_collection", "is_collection", "is_collection(value)", false,
    some ⟨"is_collection", .unary⟩⟩,
  ⟨.types, "is_database", "is_database", "is_database(value)", false,
    some ⟨"is_database", .unary⟩⟩,
  ⟨.types, "is_index", "is_index", "is_index(value)", false, some ⟨"is_index", .unary⟩⟩,
  ⟨.types, "is_function", "is_function", "is_function(value)", false,
    some ⟨"is_function", .unary⟩⟩,
  ⟨.types, "is_key", "is_key", "is_key(value)", false, some ⟨"is_key", .unary⟩⟩,
  ⟨.types, "is_token", "is_token", "is_token(value)", false, some ⟨"is_token", .unary⟩⟩,
  ⟨.types, "is_credentials", "is_credentials", "is_credentials(value)", false,
    some ⟨"is_credentials", .unary⟩⟩,
  ⟨.types, "is_role", "is_role", "is_role(value)", false, some ⟨"is_role", .unary⟩⟩,
  ⟨.types, "to_string", "to_string", "to_string(value)", false, some ⟨"to_string", .unary⟩⟩,
  ⟨.types, "to_number", "to_number", "to_number(value)", false, some ⟨"to_number", .unary⟩⟩,
  ⟨.types, "to_object", "to_object", "to_object(pairs)", false, some ⟨"to_object", .unary⟩⟩,
  ⟨.types, "to_array", "to_array", "to_array(object)", false, some ⟨"to_array", .unary⟩⟩,
  ⟨.types, "to_double", "to_double", "to_double(value)", false, some ⟨"to_double", .unary⟩⟩,
  ⟨.types, "to_integer", "to_integer", "to_integer(value)", false, some ⟨"to_integer", .unary⟩⟩,
  ⟨.types, "to_time", "to_time", "to_time(value)", false, some ⟨"to_time", .unary⟩⟩,
  ⟨.types, "to_date", "to_date", "to_date(value)", false, some ⟨"to_date", .unary⟩⟩]

def readEntries : List Entry := [
  ⟨.read, "get", "get", "get(reference, ts?)", false,
    some ⟨"get", .operation .value [.optionalValue "ts"]⟩⟩,
  ⟨.read, "exists", "exists", "exists(reference, ts?)", false,
    some ⟨"exists", .operation .value [.optionalValue "ts"]⟩⟩,
  ⟨.read, "key_from_secret", "key_from_secret", "key_from_secret(secret)", false,
    some ⟨"key_from_secret", .unary⟩⟩,
  ⟨.read, "reduce", "reduce", "reduce(lambda, initial, collection)", false,
    some ⟨"reduce", .operation .lambda [.required "initial", .required "collection"]⟩⟩,
  ⟨.read, "paginate", "paginate",
    "paginate(set, \x7bsize?, after?, before?, ts?, events?, sources?\x7d)", false,
    some ⟨"paginate", .operation .value
      [.optionalValue "size", .optionalValue "after", .optionalValue "before",
        .optionalValue "ts", .optionalValue "events", .optionalValue "sources"]⟩⟩]

def writeEntries : List Entry := [
  ⟨.write, "create", "create", "create(collection, params?)", false,
    some ⟨"create", .operation .value [.optionalValue "params"]⟩⟩,
  ⟨.write, "update", "update", "update(reference, params)", false,
    some ⟨"update", .operation .value [.required "params"]⟩⟩,
  ⟨.write, "replace", "replace", "replace(reference, params)", false,
    some ⟨"replace", .operation .value [.required "params"]⟩⟩,
  ⟨.write, "delete", "delete", "delete(reference)", false, some ⟨"delete", .unary⟩⟩,
  ⟨.write, "insert", "insert", "insert(reference, ts, action, params)", false,
    some ⟨"insert", .operation .value [.required "ts", .required "action", .required "params"]⟩⟩,
  ⟨.write, "remove", "remove", "remove(reference, ts, action)", false,
    some ⟨"remove", .operation .value [.required "ts", .required "action"]⟩⟩,
  ⟨.write, "move_database", "move_database", "move_database(from, to)", false,
    some ⟨"move_database", .operation .value [.required "to"]⟩⟩,
  ⟨.write, "create_class", "create_class", "create_class(params)", false,
    some ⟨"create_class", .unary⟩⟩,
  ⟨.write, "create_collection", "create_collection", "create_collection(params)", false,
    some ⟨"create_collection", .unary⟩⟩,
  ⟨.write, "create_database", "create_database", "create_database(params)", false,
    some ⟨"create_database", .unary⟩⟩,
  ⟨.write, "create_index", "create_index", "create_index(params)", false,
    some ⟨"create_index", .unary⟩⟩,
  ⟨.write, "create_key", "create_key", "create_key(params)", false, some ⟨"create_key", .unary⟩⟩,
  ⟨.write, "create_function", "create_function", "create_function(params)", false,
    some ⟨"create_function", .unary⟩⟩,
  ⟨.write, "create_role", "create_role", "create_role(params)", false,
    some ⟨"create_role", .unary⟩⟩,
  ⟨.write, "create_access_provider", "create_access_provider",
    "create_access_provider(params)", false,
    some ⟨"create_access_provider", .unary⟩⟩]

def setsEntries : List Entry := [
  ⟨.sets, "singleton", "singleton", "singleton(reference)", false, some ⟨"singleton", .unary⟩⟩,
  ⟨.sets, "events", "events", "events(reference_or_set)", false, some ⟨"events", .unary⟩⟩,
  ⟨.sets, "match_", "match", "match_(index, terms...)", false,
    some ⟨"match", .operation .value [.optionalItems "terms"]⟩⟩,
  ⟨.sets, "union", "union", "union(sets...)", true, some ⟨"union", .variadic⟩⟩,
  ⟨.sets, "merge", "merge", "merge(merge, with, lambda?)", false,
    some ⟨"merge", .operation .value [.required "with", .optionalLambda "lambda"]⟩⟩,
  ⟨.sets, "intersection", "intersection", "intersection(sets...)", true,
    some ⟨"intersection", .variadic⟩⟩,
  ⟨.sets, "difference", "difference", "difference(sets...)", true,
    some ⟨"difference", .variadic⟩⟩,
  ⟨.sets, "distinct", "distinct", "distinct(set)", false, some ⟨"distinct", .unary⟩⟩,
  ⟨.sets, "join", "join", "join(source, target)", false,
    some ⟨"join", .operation .value [.lambda "with"]⟩⟩,
  ⟨.sets, "range", "range", "range(set, from, to)", false,
    some ⟨"range", .operation .value [.required "from", .required "to"]⟩⟩,
  ⟨.sets, "documents", "documents", "documents(collection)", false, some ⟨"documents", .unary⟩⟩]

def authEntries : List Entry := [
  ⟨.auth, "login", "login", "login(reference, params)", false,
    some ⟨"login", .operation .value [.required "params"]⟩⟩,
  ⟨.auth, "logout", "logout", "logout(all_tokens)", false, some ⟨"logout", .unary⟩⟩,
  ⟨.auth, "identify", "identify", "identify(reference, password)", false,
    some ⟨"identify", .operation .value [.required "password"]⟩⟩,
  ⟨.auth, "identity", "identity", "identity()", false, some ⟨"identity", .constant⟩⟩,
  ⟨.auth, "current_identity", "current_identity", "current_identity()", false,
    some ⟨"current_identity", .constant⟩⟩,
  ⟨.auth, "has_identity", "has_identity", "has_identity()", false,
    some ⟨"has_identity", .constant⟩⟩,
  ⟨.auth, "has_current_identity", "has_current_identity", "has_current_identity()", false,
    some ⟨"has_current_identity", .constant⟩⟩,
  ⟨.auth, "current_token", "current_token", "current_token()", false,
    some ⟨"current_token", .constant⟩⟩,
  ⟨.auth, "has_current_token", "has_current_token", "has_current_token()", false,
    some ⟨"has_current_token", .constant⟩⟩]

def stringsEntries : List Entry := [
  ⟨.strings, "concat", "concat", "concat(strings, separator?)", false,
    some ⟨"concat", .operation .value [.optionalValue "separator"]⟩⟩,
  ⟨.strings, "casefold", "casefold", "casefold(value, normalizer?)", false,
    some ⟨"casefold", .operation .value [.optionalValue "normalizer"]⟩⟩,
  ⟨.strings, "contains_str", "containsstr", "contains_str(value, search)", false,
    some ⟨"containsstr", .operation .value [.required "search"]⟩⟩,
  ⟨.strings, "contains_str_regex", "containsstrregex",
    "contains_str_regex(value, pattern)", false,
    some ⟨"containsstrregex", .operation .value [.required "pattern"]⟩⟩,
  ⟨.strings, "starts_with", "startswith", "starts_with(value, search)", false,
    some ⟨"startswith", .operation .value [.required "search"]⟩⟩,
  ⟨.strings, "ends_with", "endswith", "ends_with(value, search)", false,
    some ⟨"endswith", .operation .value [.required "search"]⟩⟩,
  ⟨.strings, "regex_escape", "regexescape", "regex_escape(value)", false,
    some ⟨"regexescape", .unary⟩⟩,
  ⟨.strings, "find_str", "findstr", "find_str(value, find, start?)", false,
    some ⟨"findstr", .operation .value [.required "find", .optionalValue "start"]⟩⟩,
  ⟨.strings, "find_str_regex", "findstrregex",
    "find_str_regex(value, pattern, start?, num_results?)", false,
    some ⟨"findstrregex", .operation .value
      [.required "pattern", .optionalValue "start", .optionalValue "num_results"]⟩⟩,
  ⟨.strings, "length", "length", "length(value)", false, some ⟨"length", .unary⟩⟩,
  ⟨.strings, "lowercase", "lowercase", "lowercase(value)", false, some ⟨"lowercase", .unary⟩⟩,
  ⟨.strings, "ltrim", "ltrim", "ltrim(value)", false, some ⟨"ltrim", .unary⟩⟩,
  ⟨.strings, "ngram", "ngram", "ngram(terms, min?, max?)", false,
    some ⟨"ngram", .operation .value [.optionalValue "min", .optionalValue "max"]⟩⟩,
  ⟨.strings, "repeat", "repeat", "repeat(value, number?)", false,
    some ⟨"repeat", .operation .value [.optionalValue "number"]⟩⟩,
  ⟨.strings, "replace_str", "replacestr", "replace_str(value, find, replace)", false,
    some ⟨"replacestr", .operation .value [.required "find", .required "replace"]⟩⟩,
  ⟨.strings, "replace_str_regex", "replacestrregex",
    "replace_str_regex(value, pattern, replace, first?)", false,
    some ⟨"replacestrregex", .operation .value
      [.required "pattern", .required "replace", .optionalValue "first"]⟩⟩,
  ⟨.strings, "rtrim", "rtrim", "rtrim(value)", false, some ⟨"rtrim", .unary⟩⟩,
  ⟨.strings, "space", "space", "space(count)", false, some ⟨"space", .unary⟩⟩,
  ⟨.strings, "substring", "substring", "substring(value, start?, length?)", false,
    some ⟨"substring", .operation .value [.optionalValue "start", .optionalValue "length"]⟩⟩,
  ⟨.strings, "titlecase", "titlecase", "titlecase(value)", false, some ⟨"titlecase", .unary⟩⟩,
  ⟨.strings, "trim", "trim", "trim(value)", false, some ⟨"trim", .unary⟩⟩,
  ⟨.strings, "uppercase", "uppercase", "uppercase(value)", false, some ⟨"uppercase", .unary⟩⟩,
  ⟨.strings, "format", "format", "format(format, values...)", false,
    some ⟨"format", .operation .value [.optionalItems "values"]⟩⟩]

def timeEntries : List Entry := [
  ⟨.time, "time", "time", "time(iso)", false, some ⟨"time", .unary⟩⟩,
  ⟨.time, "epoch", "epoch", "epoch(number, unit)", false,
    some ⟨"epoch", .operation .value [.required "unit"]⟩⟩,
  ⟨.time, "time_add", "time_add", "time_add(base, offset, unit)", false,
    some ⟨"time_add", .operation .value [.required "offset", .required "unit"]⟩⟩,
  ⟨.time, "time_subtract", "time_subtract", "time_subtract(base, offset, unit)", false,
    some ⟨"time_subtract", .operation .value [.required "offset", .required "unit"]⟩⟩,
  ⟨.time, "time_diff", "time_diff", "time_diff(start, finish, unit)", false,
    some ⟨"time_diff", .operation .value [.required "other", .required "unit"]⟩⟩,
  ⟨.time, "date", "date", "date(iso)", false, some ⟨"date", .unary⟩⟩,
  ⟨.time, "now", "now", "now()", false, some ⟨"now", .constant⟩⟩,
  ⟨.time, "to_seconds", "to_seconds", "to_seconds(time)", false, some ⟨"to_seconds", .unary⟩⟩,
  ⟨.time, "to_millis", "to_millis", "to_millis(time)", false, some ⟨"to_millis", .unary⟩⟩,
  ⟨.time, "to_micros", "to_micros", "to_micros(time)", false, some ⟨"to_micros", .unary⟩⟩,
  ⟨.time, "day_of_week", "day_of_week", "day_of_week(time)", false, some ⟨"day_of_week", .unary⟩⟩,
  ⟨.time, "day_of_year", "day_of_year", "day_of_year(time)", false, some ⟨"day_of_year", .unary⟩⟩,
  ⟨.time, "day_of_month", "day_of_month", "day_of_month(time)", false,
    some ⟨"day_of_month", .unary⟩⟩,
  ⟨.time, "hour", "hour", "hour(time)", false, some ⟨"hour", .unary⟩⟩,
  ⟨.time, "minute", "minute", "minute(time)", false, some ⟨"minute", .unary⟩⟩,
  ⟨.time, "second", "second", "second(time)", false, some ⟨"second", .unary⟩⟩,
  ⟨.time, "month", "month", "month(time)", false, some ⟨"month", .unary⟩⟩,
  ⟨.time, "year", "year", "year(time)", false, some ⟨"year", .unary⟩⟩]

def schemaEntries : List Entry := [
  ⟨.schema, "new_id", "new_id", "new_id()", false, some ⟨"new_id", .constant⟩⟩,
  ⟨.schema, "next_id", "next_id", "next_id()", false, some ⟨"next_id", .constant⟩⟩,
  ⟨.schema, "database", "database", "database(name, scope?)", false,
    some ⟨"database", .operation .value [.optionalValue "scope"]⟩⟩,
  ⟨.schema, "index", "index", "index(name, scope?)", false,
    some ⟨"index", .operation .value [.optionalValue "scope"]⟩⟩,
  ⟨.schema, "class", "class", "class(name, scope?)", false,
    some ⟨"class", .operation .value [.optionalValue "scope"]⟩⟩,
  ⟨.schema, "collection", "collection", "collection(name, scope?)", false,
    some ⟨"collection", .operation .value [.optionalValue "scope"]⟩⟩,
  ⟨.schema, "function", "function", "function(name, scope?)", false,
    some ⟨"function", .operation .value [.optionalValue "scope"]⟩⟩,
  ⟨.schema, "role", "role", "role(name, scope?)", false,
    some ⟨"role", .operation .value [.optionalValue "scope"]⟩⟩,
  ⟨.schema, "access_provider", "access_provider", "access_provider(name, scope?)", false,
    some ⟨"access_provider", .operation .value [.optionalValue "scope"]⟩⟩,
  ⟨.schema, "databases", "databases", "databases(scope?)", false, some ⟨"databases", .listing⟩⟩,
  ⟨.schema, "indexes", "indexes", "indexes(scope?)", false, some ⟨"indexes", .listing⟩⟩,
  ⟨.schema, "classes", "classes", "classes(scope?)", false, some ⟨"classes", .listing⟩⟩,
  ⟨.schema, "collections", "collections", "collections(scope?)", false,
    some ⟨"collections", .listing⟩⟩,
  ⟨.schema, "functions", "functions", "functions(scope?)", false, some ⟨"functions", .listing⟩⟩,
  ⟨.schema, "roles", "roles", "roles(scope?)", false, some ⟨"roles", .listing⟩⟩,
  ⟨.schema, "keys", "keys", "keys(scope?)", false, some ⟨"keys", .listing⟩⟩,
  ⟨.schema, "tokens", "tokens", "tokens(scope?)", false, some ⟨"tokens", .listing⟩⟩,
  ⟨.schema, "credentials", "credentials", "credentials(scope?)", false,
    some ⟨"credentials", .listing⟩⟩,
  ⟨.schema, "access_providers", "access_providers", "access_providers(scope?)", false,
    some ⟨"access_providers", .listing⟩⟩]

def objectsEntries : List Entry := [
  ⟨.objects, "equals", "equals", "equals(values...)", true, some ⟨"equals", .variadic⟩⟩,
  ⟨.objects, "contains", "contains", "contains(path, within)", false,
    some ⟨"contains", .operation .value [.required "in"]⟩⟩,
  ⟨.objects, "contains_path", "contains_path", "contains_path(path, within)", false,
    some ⟨"contains_path", .operation .value [.required "in"]⟩⟩,
  ⟨.objects, "contains_field", "contains_field", "contains_field(field, within)", false,
    some ⟨"contains_field", .operation .value [.required "in"]⟩⟩,
  ⟨.objects, "contains_value", "contains_value", "contains_value(value, within)", false,
    some ⟨"contains_value", .operation .value [.required "in"]⟩⟩,
  ⟨.objects, "select", "select", "select(path, from, default?)", false,
    some ⟨"select", .operation .value [.required "from", .optionalValue "default"]⟩⟩,
  ⟨.objects, "select_all", "select_all", "select_all(path, from)", false,
    some ⟨"select_all", .operation .value [.required "from"]⟩⟩]

def mathEntries : List Entry := [
  ⟨.math, "abs", "abs", "abs(value)", false, some ⟨"abs", .unary⟩⟩,
  ⟨.math, "add", "add", "add(values...)", true, some ⟨"add", .variadic⟩⟩,
  ⟨.math, "bit_and", "bitand", "bit_and(values...)", true, some ⟨"bitand", .variadic⟩⟩,
  ⟨.math, "bit_not", "bitnot", "bit_not(value)", false, some ⟨"bitnot", .unary⟩⟩,
  ⟨.math, "bit_or", "bitor", "bit_or(values...)", true, some ⟨"bitor", .variadic⟩⟩,
  ⟨.math, "bit_xor", "bitxor", "bit_xor(values...)", true, some ⟨"bitxor", .variadic⟩⟩,
  ⟨.math, "ceil", "ceil", "ceil(value)", false, some ⟨"ceil", .unary⟩⟩,
  ⟨.math, "divide", "divide", "divide(values...)", true, some ⟨"divide", .variadic⟩⟩,
  ⟨.math, "floor", "floor", "floor(value)", false, some ⟨"floor", .unary⟩⟩,
  ⟨.math, "max", "max", "max(values...)", true, some ⟨"max", .variadic⟩⟩,
  ⟨.math, "min", "min", "min(values...)", true, some ⟨"min", .variadic⟩⟩,
  ⟨.math, "modulo", "modulo", "modulo(values...)", true, some ⟨"modulo", .variadic⟩⟩,
  ⟨.math, "multiply", "multiply", "multiply(values...)", true, some ⟨"multiply", .variadic⟩⟩,
  ⟨.math, "round", "round", "round(value, precision?)", false,
    some ⟨"round", .operation .value [.optionalValue "precision"]⟩⟩,
  ⟨.math, "subtract", "subtract", "subtract(values...)", true, some ⟨"subtract", .variadic⟩⟩,
  ⟨.math, "sign", "sign", "sign(value)", false, some ⟨"sign", .unary⟩⟩,
  ⟨.math, "sqrt", "sqrt", "sqrt(value)", false, some ⟨"sqrt", .unary⟩⟩,
  ⟨.math, "trunc", "trunc", "trunc(value, precision?)", false,
    some ⟨"trunc", .operation .value [.optionalValue "precision"]⟩⟩,
  ⟨.math, "count", "count", "count(collection)", false, some ⟨"count", .unary⟩⟩,
  ⟨.math, "sum", "sum", "sum(collection)", false, some ⟨"sum", .unary⟩⟩,
  ⟨.math, "mean", "mean", "mean(collection)", false, some ⟨"mean", .unary⟩⟩,
  ⟨.math, "any", "any", "any(collection)", false, some ⟨"any", .unary⟩⟩,
  ⟨.math, "all", "all", "all(collection)", false, some ⟨"all", .unary⟩⟩,
  ⟨.math, "acos", "acos", "acos(value)", false, some ⟨"acos", .unary⟩⟩,
  ⟨.math, "asin", "asin", "asin(value)", false, some ⟨"asin", .unary⟩⟩,
  ⟨.math, "atan", "atan", "atan(value)", false, some ⟨"atan", .unary⟩⟩,
  ⟨.math, "cos", "cos", "cos(value)", false, some ⟨"cos", .unary⟩⟩,
  ⟨.math, "cosh", "cosh", "cosh(value)", false, some ⟨"cosh", .unary⟩⟩,
  ⟨.math, "degrees", "degrees", "degrees(value)", false, some ⟨"degrees", .unary⟩⟩,
  ⟨.math, "exp", "exp", "exp(value)", false, some ⟨"exp", .unary⟩⟩,
  ⟨.math, "hypot", "hypot", "hypot(a, b?)", false,
    some ⟨"hypot", .operation .value [.optionalValue "b"]⟩⟩,
  ⟨.math, "ln", "ln", "ln(value)", false, some ⟨"ln", .unary⟩⟩,
  ⟨.math, "log", "log", "log(value)", false, some ⟨"log", .unary⟩⟩,
  ⟨.math, "pow", "pow", "pow(base, exp?)", false,
    some ⟨"pow", .operation .value [.optionalValue "exp"]⟩⟩,
  ⟨.math, "radians", "radians", "radians(value)", false, some ⟨"radians", .unary⟩⟩,
  ⟨.math, "sin", "sin", "sin(value)", false, some ⟨"sin", .unary⟩⟩,
  ⟨.math, "sinh", "sinh", "sinh(value)", false, some ⟨"sinh", .unary⟩⟩,
  ⟨.math, "tan", "tan", "tan(value)", false, some ⟨"tan", .unary⟩⟩,
  ⟨.math, "tanh", "tanh", "tanh(value)", false, some ⟨"tanh", .unary⟩⟩]

def logicEntries : List Entry := [
  ⟨.logic, "lt", "lt", "lt(values...)", true, some ⟨"lt", .variadic⟩⟩,
  ⟨.logic, "lte", "lte", "lte(values...)", true, some ⟨"lte", .variadic⟩⟩,
  ⟨.logic, "gt", "gt", "gt(values...)", true, some ⟨"gt", .variadic⟩⟩,
  ⟨.logic, "gte", "gte", "gte(values...)", true, some ⟨"gte", .variadic⟩⟩,
  ⟨.logic, "and", "and", "and(values...)", true, some ⟨"and", .variadic⟩⟩,
  ⟨.logic, "or", "or", "or(values...)", true, some ⟨"or", .variadic⟩⟩,
  ⟨.logic, "not", "not", "not(value)", false, some ⟨"not", .unary⟩⟩]

def entries : List Entry :=
  basicEntries ++ collectionsEntries ++ typesEntries ++ readEntries ++ writeEntries ++
    setsEntries ++ authEntries ++ stringsEntries ++ timeEntries ++
    schemaEntries ++ objectsEntries ++ mathEntries ++ logicEntries

/-- Tags that the engine sends back and no builder makes. -/
def specialTags : List String := ["@obj", "@set", "@query"]

/-- The entry that makes nodes with the given tag. -/
def lookup (tag : String) : Option Entry := entries.find? (fun e => e.tag == tag)

def isKnownTag (tag : String) : Bool := (lookup tag).isSome || specialTags.contains tag

def ofCategory (category : Category) : List Entry :=
  entries.filter (fun e => e.category == category)

end QueryTree.Catalog
