/-!
# The fixed part of generated programs

The text below the integrator is the same in every generated program: looking variables
up by name, writing rows, the loop over the time steps, and the function `main` with the
arguments of a run.
-/

namespace DiffAnalyzer

namespace CSource

/-- Computing auxiliaries for a row, and looking a variable up in the three records. -/
def lookupLines : List String := [
  "",
  "static void compute_aux(const state_t *state, aux_t *aux) \x7b",
  "    state_t unused;",
  "    f(state, &unused, aux);",
  "\x7d",
  "",
  "static double *lookup(state_t *state, aux_t *aux, const char *name) \x7b",
  "    double *value = state_by_name(state, name);",
  "    if (!value) value = aux_by_name(aux, name);",
  "    if (!value) value = const_by_name(&constants, name);",
  "    return value;",
  "\x7d",
  "",
  "static int is_variable(const char *name) \x7b",
  "    for (size_t i = 0; i < N_VARIABLES; i++)",
  "        if (!strcmp(all_variables[i], name)) return 1;",
  "    return 0;",
  "\x7d"]

/-- Writing the header and the rows. -/
def writerLines : List String := [
  "",
  "typedef struct \x7b",
  "    const char **query;",
  "    size_t n_query;",
  "    int binary_output;",
  "    int always_compute_aux_before_printing;",
  "\x7d writer_t;",
  "",
  "static void write_header(const writer_t *writer) \x7b",
  "    if (writer->binary_output) return;",
  "    for (size_t i = 0; i < writer->n_query; i++)",
  "        printf(\"%s%s\", writer->query[i], i + 1 < writer->n_query ? \"\\t\" : \"\\n\");",
  "\x7d",
  "",
  "static void write_row(const writer_t *writer, const state_t *state, const aux_t *aux) \x7b",
  "    state_t s = *state;",
  "    aux_t a = *aux;",
  "    if (writer->always_compute_aux_before_printing) compute_aux(&s, &a);",
  "    for (size_t i = 0; i < writer->n_query; i++) \x7b",
  "        double *value = lookup(&s, &a, writer->query[i]);",
  "        if (!value) \x7b",
  "            fprintf(stderr, \"ERR: lookup failed for %s\\n\", writer->query[i]);",
  "            exit(3);",
  "        \x7d",
  "        if (writer->binary_output)",
  "            fwrite(value, sizeof(double), 1, stdout);",
  "        else",
  "            printf(\"%.*g%s\", OUTPUT_PRECISION, *value, i + 1 < writer->n_query ? \"\\t\" : \"\\n\");",
  "    \x7d",
  "\x7d"]

/-- The loop over the time steps. -/
def loopLines : List String := [
  "",
  "static void simulate(const writer_t *writer, long max_iterations, long modulo_write,",
  "                     int rk_order, int write_initial_conditions) \x7b",
  "    state_t state = initial;",
  "    aux_t aux;",
  "    memset(&aux, 0, sizeof aux);",
  "",
  "    write_header(writer);",
  "    if (write_initial_conditions) \x7b",
  "        aux_set_nan(&aux);",
  "        write_row(writer, &state, &aux);",
  "    \x7d",
  "    for (long iter = 0; iter < max_iterations; iter++) \x7b",
  "        integrate(&state, &aux, rk_order);",
  "        if (iter % modulo_write == 0) write_row(writer, &state, &aux);",
  "    \x7d",
  "    fflush(stdout);",
  "\x7d"]

/-- Splitting arguments and reading numbers and flags from them. -/
def argumentLines : List String := [
  "",
  "static int has_prefix(const char *s, const char *prefix) \x7b",
  "    return !strncmp(s, prefix, strlen(prefix));",
  "\x7d",
  "",
  "static double parse_number(const char *arg, const char *value) \x7b",
  "    char *end;",
  "    double x = strtod(value, &end);",
  "    if (end == value || *end) \x7b",
  "        fprintf(stderr, \"ERR: not a number in %s\\n\", arg);",
  "        exit(4);",
  "    \x7d",
  "    return x;",
  "\x7d",
  "",
  "static int parse_flag(const char *arg, const char *value) \x7b",
  "    if (!strcmp(value, \"1\") || !strcmp(value, \"true\")) return 1;",
  "    if (!strcmp(value, \"0\") || !strcmp(value, \"false\")) return 0;",
  "    fprintf(stderr, \"ERR: not a boolean in %s\\n\", arg);",
  "    exit(4);",
  "\x7d",
  "",
  "/* Copies the key of \"--key=value\" into key and returns the value, \"1\" if absent. */",
  "static const char *split_arg(const char *arg, char *key, size_t size) \x7b",
  "    const char *body = arg + 2;",
  "    const char *eq = strchr(body, '=');",
  "    size_t len = eq ? (size_t) (eq - body) : strlen(body);",
  "    if (len >= size) \x7b",
  "        fprintf(stderr, \"ERR: argument too long: %s\\n\", arg);",
  "        exit(3);",
  "    \x7d",
  "    memcpy(key, body, len);",
  "    key[len] = '\\0';",
  "    return eq ? eq + 1 : \"1\";",
  "\x7d"]

/-- The help text. -/
def usageLines : List String := [
  "",
  "static void print_names(FILE *out, const char *title, const char **names, size_t n) \x7b",
  "    fprintf(out, \"%s:\\n\", title);",
  "    for (size_t i = 0; i < n; i++) fprintf(out, \"  %s\\n\", names[i]);",
  "\x7d",
  "",
  "static void usage(const char *program) \x7b",
  "    fprintf(stderr, \"Usage: %s [arguments] [variables to print]\\n\", program);",
  "    fprintf(stderr, \"Integrates a DDA circuit in time, writing one row per step.\\n\\n\");",
  "    fprintf(stderr, \"Boolean arguments (--foo, --foo=1 or --foo=0):\\n\");",
  "    fprintf(stderr, \"  --write_initial_conditions (default: 0)\\n\");",
  "    fprintf(stderr, \"  --always_compute_aux_before_printing (default: 1)\\n\");",
  "    fprintf(stderr, \"  --binary_output (default: 0)\\n\");",
  "    fprintf(stderr, \"  --list_all_variables (default: 0)\\n\");",
  "    fprintf(stderr, \"Numeric arguments (--foo=123):\\n\");",
  "    fprintf(stderr, \"  --max_iterations (default: 100)\\n\");",
  "    fprintf(stderr, \"  --modulo_write (default: 1)\\n\");",
  "    fprintf(stderr, \"  --rk_order (default: 1)\\n\");",
  "    fprintf(stderr, \"Overrides: --ic:NAME=VALUE --dt:NAME=VALUE --const:NAME=VALUE\\n\\n\");",
  "    print_names(stderr, \"Variables (all are printed if none is given)\", all_variables, N_VARIABLES);",
  "\x7d"]

/-- The function `main`. -/
def mainLines : List String := [
  "",
  "int main(int argc, char **argv) \x7b",
  "    long max_iterations = 100, modulo_write = 1, rk_order = 1;",
  "    int write_initial_conditions = 0, list_all_variables = 0;",
  "    writer_t writer = \x7b NULL, 0, 0, 1 \x7d;",
  "    char key[256];",
  "    size_t n_query = 0;",
  "    const char **query = malloc(sizeof(char *) * (size_t) argc);",
  "    if (!query) return 1;",
  "",
  "    init_constants();",
  "    for (int i = 1; i < argc; i++) \x7b",
  "        const char *arg = argv[i];",
  "        if (!strcmp(arg, \"--help\")) \x7b",
  "            usage(argv[0]);",
  "            return 1;",
  "        \x7d",
  "        if (!has_prefix(arg, \"--\")) \x7b",
  "            if (!is_variable(arg)) \x7b",
  "                fprintf(stderr, \"ERR: %s is not a variable. Try --help\\n\", arg);",
  "                return 2;",
  "            \x7d",
  "            query[n_query++] = arg;",
  "            continue;",
  "        \x7d",
  "",
  "        const char *value = split_arg(arg, key, sizeof key);",
  "        if (has_prefix(key, \"ic:\") || has_prefix(key, \"dt:\")) continue;",
  "        if (has_prefix(key, \"const:\")) \x7b",
  "            double *c = const_by_name(&constants, key + 6);",
  "            if (!c) \x7b",
  "                fprintf(stderr, \"ERR: %s is not a constant\\n\", key + 6);",
  "                return 2;",
  "            \x7d",
  "            *c = parse_number(arg, value);",
  "        \x7d",
  "        else if (!strcmp(key, \"max_iterations\")) max_iterations = (long) parse_number(arg, value);",
  "        else if (!strcmp(key, \"modulo_write\")) modulo_write = (long) parse_number(arg, value);",
  "        else if (!strcmp(key, \"rk_order\")) rk_order = (long) parse_number(arg, value);",
  "        else if (!strcmp(key, \"binary_output\")) writer.binary_output = parse_flag(arg, value);",
  "        else if (!strcmp(key, \"write_initial_conditions\")) write_initial_conditions = parse_flag(arg, value);",
  "        else if (!strcmp(key, \"always_compute_aux_before_printing\"))",
  "            writer.always_compute_aux_before_printing = parse_flag(arg, value);",
  "        else if (!strcmp(key, \"list_all_variables\")) list_all_variables = parse_flag(arg, value);",
  "        else \x7b",
  "            fprintf(stderr, \"ERR: illegal argument %s. Try --help\\n\", arg);",
  "            return 3;",
  "        \x7d",
  "    \x7d",
  "",
  "    init_parameters();",
  "    for (int i = 1; i < argc; i++) \x7b",
  "        if (!has_prefix(argv[i], \"--ic:\") && !has_prefix(argv[i], \"--dt:\")) continue;",
  "        const char *value = split_arg(argv[i], key, sizeof key);",
  "        double *p = state_by_name(has_prefix(key, \"ic:\") ? &initial : &dt, key + 3);",
  "        if (!p) \x7b",
  "            fprintf(stderr, \"ERR: %s is not an evolved variable\\n\", key + 3);",
  "            return 2;",
  "        \x7d",
  "        *p = parse_number(argv[i], value);",
  "    \x7d",
  "",
  "    if (list_all_variables) \x7b",
  "        print_names(stdout, \"state\", state_names, N_STATE);",
  "        print_names(stdout, \"aux\", aux_names, N_AUX);",
  "        print_names(stdout, \"constants\", const_names, N_CONST);",
  "        free(query);",
  "        return 0;",
  "    \x7d",
  "    if (modulo_write < 1) \x7b",
  "        fprintf(stderr, \"ERR: modulo_write must be positive\\n\");",
  "        return 3;",
  "    \x7d",
  "",
  "    writer.query = n_query ? query : all_variables;",
  "    writer.n_query = n_query ? n_query : N_VARIABLES;",
  "    simulate(&writer, max_iterations, modulo_write, (int) rk_order, write_initial_conditions);",
  "",
  "    free(query);",
  "    return 0;",
  "\x7d"]

/-- The text of lines, each with a line feed behind it. -/
def linesText (lines : List String) : String := "".intercalate (lines.map (· ++ "\n"))

/-- Everything below the integrator. -/
def fixedText : String :=
  linesText (lookupLines ++ writerLines ++ loopLines ++ argumentLines ++ usageLines ++ mainLines)

end CSource

end DiffAnalyzer
